import StackCompiler.Fault
import StackCompiler.Surface
import StackCompiler.Token

/-!
# Reading a program from its tokens

The reader follows the grammar from the top down and looks one token ahead, two where a name may
start a call. A reading either gives a tree with the tokens after it, or stops at a token.

Each reading carries the proof that it used up at least one token. This is what lets the grammar
be followed by well-founded recursion: every rule recurses on fewer tokens, or on as many tokens
and a tighter level of the grammar.

Operators of one level group to the left. An assignment has one comparison chain on each side, so
assignments do not chain.
-/

namespace StackCompiler

namespace Surface

/-! ## 1. Readings -/

/-- The place where the grammar accepts no further token: why, and the tokens from there on. -/
structure Stuck where
  fault : Fault
  rest : List Token

/-- The byte offset of a place in a list of tokens whose source has `size` bytes. -/
def startOf (size : Nat) : List Token → Nat
  | [] => size
  | t :: _ => t.loc

/-- The fault at which reading stopped, located in a source of `size` bytes. -/
def Stuck.located (s : Stuck) (size : Nat) : Located :=
  ⟨s.fault, startOf size s.rest⟩

/-- The place at which something else was wanted than the token that stands there. -/
def Stuck.wanting (wanted : Wanted) (ts : List Token) : Stuck :=
  match Token.describe ts.head? with
  | some found => ⟨.unexpected wanted found, ts⟩
  | none => ⟨.tornToken, ts⟩

/-- What was read from a list of tokens, and the tokens after it, which are fewer than `bound`. -/
structure Reading (α : Type) (bound : Nat) where
  value : α
  rest : List Token
  shorter : rest.length < bound

/-- The outcome of reading from fewer tokens than `bound`. -/
abbrev Outcome (α : Type) (bound : Nat) :=
  Except Stuck (Reading α bound)

/-- The tokens after the first one, if that one satisfies `p`. -/
def after? (p : Token → Bool) :
    (ts : List Token) → Option { rest : List Token // rest.length < ts.length }
  | [] => none
  | t :: rest => if p t then some ⟨rest, by simp⟩ else none

/-- The tokens after the punctuator `s`, if that comes first. -/
def punctuator? (s : String) (ts : List Token) :
    Option { rest : List Token // rest.length < ts.length } :=
  after? (·.isPunctuator s) ts

/-- The tokens after the keyword `s`, if that comes first. -/
def keyword? (s : String) (ts : List Token) :
    Option { rest : List Token // rest.length < ts.length } :=
  after? (·.isKeyword s) ts

/-- The operator of the given level that comes first, with the tokens after it. -/
def operator? (level : Nat) :
    (ts : List Token) → Option (Op × { rest : List Token // rest.length < ts.length })
  | [] => none
  | t :: rest =>
    if t.kind = .punctuator then
      (t.text.bind (Op.ofSpelling? level)).map fun op => (op, ⟨rest, by simp⟩)
    else none

/-- Reads the punctuator `s`, which has to come first. -/
def readPunctuator (s : String) (ts : List Token) : Outcome Unit ts.length :=
  match punctuator? s ts with
  | some ⟨rest, shorter⟩ => .ok ⟨(), rest, shorter⟩
  | none => .error (.wanting (.punctuator s) ts)

/-- The name that comes first, with the tokens after it. -/
def name? : (ts : List Token) → Option (String × { rest : List Token // rest.length < ts.length })
  | [] => none
  | t :: rest => if t.kind = .ident then t.text.map fun name => (name, ⟨rest, by simp⟩) else none

/-- Reads an identifier, which has to come first. -/
def readIdentifier (ts : List Token) : Outcome String ts.length :=
  match name? ts with
  | some (name, ⟨rest, shorter⟩) => .ok ⟨name, rest, shorter⟩
  | none => .error (.wanting .identifier ts)

/-- Whether the tokens have come to their end marker, or to their end. -/
def atEnd : List Token → Bool
  | [] => true
  | t :: _ => t.kind == .eof

/-! ## 2. Expressions -/

mutual

/-- An expression: a chain of equality operators, or an assignment between two of them. Where a
left side was read there was a first token, so the size given to `startOf` does not matter. -/
def readExpr (ts : List Token) : Outcome Expr ts.length := do
  let ⟨target, rest, _⟩ ← readLevel maxLevel ts
  match punctuator? "=" rest with
  | some ⟨rest, _⟩ =>
    let ⟨value, rest, _⟩ ← readLevel maxLevel rest
    return ⟨.assign target value (startOf 0 ts), rest, by omega⟩
  | none => return ⟨target, rest, by omega⟩
termination_by (ts.length, maxLevel + 2)
decreasing_by
  · exact Prod.Lex.right _ (by omega)
  · exact Prod.Lex.left _ _ (by omega)

/-- An expression with operators of at most the given level outside of parentheses. Those of
level zero have a sign or nothing in front. -/
def readLevel (level : Nat) (ts : List Token) : Outcome Expr ts.length :=
  match level with
  | 0 =>
    match punctuator? "+" ts with
    | some ⟨rest, _⟩ => do
      let ⟨operand, rest, _⟩ ← readLevel 0 rest
      return ⟨operand, rest, by omega⟩
    | none =>
      match punctuator? "-" ts with
      | some ⟨rest, _⟩ => do
        let ⟨operand, rest, _⟩ ← readLevel 0 rest
        return ⟨.neg operand, rest, by omega⟩
      | none => readPrimary ts
  | tighter + 1 => do
    let ⟨first, rest, shorter⟩ ← readLevel tighter ts
    readChain tighter first rest shorter
termination_by (ts.length, level + 1)
decreasing_by
  · exact Prod.Lex.left _ _ (by omega)
  · exact Prod.Lex.left _ _ (by omega)
  · exact Prod.Lex.right _ (by omega)
  · exact Prod.Lex.right _ (by omega)
  · exact Prod.Lex.left _ _ (by omega)

/-- The rest of a chain of operators that are one level looser than their operands. -/
def readChain (tighter : Nat) {bound : Nat} (sofar : Expr) (ts : List Token)
    (shorter : ts.length < bound) : Outcome Expr bound :=
  match operator? (tighter + 1) ts with
  | none => .ok ⟨sofar, ts, shorter⟩
  | some (op, ⟨rest, _⟩) => do
    let ⟨operand, rest, _⟩ ← readLevel tighter rest
    readChain tighter (.binary op sofar operand) rest (by omega)
termination_by (ts.length, 0)
decreasing_by
  · exact Prod.Lex.left _ _ (by omega)
  · exact Prod.Lex.left _ _ (by omega)

/-- An expression in parentheses, a call, a variable or a number. A name is called exactly if an
opening parenthesis follows it. -/
def readPrimary (ts : List Token) : Outcome Expr ts.length :=
  match punctuator? "(" ts with
  | some ⟨rest, _⟩ => do
    let ⟨inner, rest, _⟩ ← readExpr rest
    let ⟨_, rest, _⟩ ← readPunctuator ")" rest
    return ⟨inner, rest, by omega⟩
  | none =>
    match ts with
    | [] => .error (.wanting .number [])
    | t :: rest =>
      match t.kind with
      | .ident =>
        match t.text with
        | some name =>
          match punctuator? "(" rest with
          | some ⟨rest, _⟩ => do
            let ⟨args, rest, _⟩ ← readArgs rest
            return ⟨.call name args t.loc, rest, by simp only [List.length_cons]; omega⟩
          | none => .ok ⟨.var name t.loc, rest, by simp⟩
        | none => .error (.wanting .number (t :: rest))
      | .num (some value) => .ok ⟨.num value, rest, by simp⟩
      | .num none => .error ⟨.numberWithoutValue, t :: rest⟩
      | .punctuator | .keyword | .eof => .error (.wanting .number (t :: rest))
termination_by (ts.length, 0)
decreasing_by
  · exact Prod.Lex.left _ _ (by omega)
  · exact Prod.Lex.left _ _ (by simp only [List.length_cons]; omega)

/-- The arguments of a call, with the parenthesis that closes them. -/
def readArgs (ts : List Token) : Outcome (List Expr) ts.length :=
  match punctuator? ")" ts with
  | some ⟨rest, shorter⟩ => .ok ⟨[], rest, shorter⟩
  | none => readMoreArgs [] ts (Nat.le_refl _)
termination_by (ts.length, maxLevel + 4)
decreasing_by
  · exact Prod.Lex.right _ (by omega)

/-- One argument and those after it, behind the arguments `done`, the last one first. -/
def readMoreArgs {bound : Nat} (done : List Expr) (ts : List Token)
    (notLonger : ts.length ≤ bound) : Outcome (List Expr) bound := do
  let ⟨arg, rest, _⟩ ← readExpr ts
  match punctuator? "," rest with
  | some ⟨rest, _⟩ => readMoreArgs (arg :: done) rest (by omega)
  | none =>
    let ⟨_, rest, _⟩ ← readPunctuator ")" rest
    return ⟨(arg :: done).reverse, rest, by omega⟩
termination_by (ts.length, maxLevel + 3)
decreasing_by
  · exact Prod.Lex.right _ (by omega)
  · exact Prod.Lex.left _ _ (by omega)

end

/-! ## 3. Statements -/

/-- A clause of a loop, which may be absent, with the punctuator that ends it. -/
def readClause (ending : String) (ts : List Token) : Outcome (Option Expr) ts.length :=
  match punctuator? ending ts with
  | some ⟨rest, shorter⟩ => .ok ⟨none, rest, shorter⟩
  | none => do
    let ⟨e, rest, _⟩ ← readExpr ts
    let ⟨_, rest, _⟩ ← readPunctuator ending rest
    return ⟨some e, rest, by omega⟩

mutual

/-- A statement. -/
def readStmt (ts : List Token) : Outcome Stmt ts.length :=
  match keyword? "return" ts with
  | some ⟨rest, _⟩ => do
    let ⟨value, rest, _⟩ ← readExpr rest
    let ⟨_, rest, _⟩ ← readPunctuator ";" rest
    return ⟨.ret value, rest, by omega⟩
  | none =>
    match keyword? "if" ts with
    | some ⟨rest, _⟩ => do
      let ⟨_, rest, _⟩ ← readPunctuator "(" rest
      let ⟨test, rest, _⟩ ← readExpr rest
      let ⟨_, rest, _⟩ ← readPunctuator ")" rest
      let ⟨yes, rest, _⟩ ← readStmt rest
      match keyword? "else" rest with
      | some ⟨rest, _⟩ =>
        let ⟨no, rest, _⟩ ← readStmt rest
        return ⟨.cond test yes (some no), rest, by omega⟩
      | none => return ⟨.cond test yes none, rest, by omega⟩
    | none =>
      match keyword? "for" ts with
      | some ⟨rest, _⟩ => do
        let ⟨_, rest, _⟩ ← readPunctuator "(" rest
        let ⟨start, rest, _⟩ ← readClause ";" rest
        let ⟨test, rest, _⟩ ← readClause ";" rest
        let ⟨next, rest, _⟩ ← readClause ")" rest
        let ⟨body, rest, _⟩ ← readStmt rest
        return ⟨.loop start test next body, rest, by omega⟩
      | none =>
        match punctuator? "\x7b" ts with
        | some ⟨rest, _⟩ => do
          let ⟨body, rest, _⟩ ← readBlock [] rest (Nat.le_refl _)
          return ⟨.block body, rest, by omega⟩
        | none => do
          let ⟨e, rest, _⟩ ← readExpr ts
          let ⟨_, rest, _⟩ ← readPunctuator ";" rest
          return ⟨.expr e, rest, by omega⟩
termination_by (ts.length, 0)
decreasing_by
  · exact Prod.Lex.left _ _ (by omega)
  · exact Prod.Lex.left _ _ (by omega)
  · exact Prod.Lex.left _ _ (by omega)
  · exact Prod.Lex.left _ _ (by omega)

/-- The statements of a block with the brace that closes it, behind the statements `done`, the
last one first. -/
def readBlock {bound : Nat} (done : List Stmt) (ts : List Token)
    (notLonger : ts.length ≤ bound) : Outcome (List Stmt) bound :=
  match punctuator? "\x7d" ts with
  | some ⟨rest, _⟩ => .ok ⟨done.reverse, rest, by omega⟩
  | none =>
    if atEnd ts then .error (.wanting (.punctuator "\x7d") ts)
    else do
      let ⟨s, rest, _⟩ ← readStmt ts
      readBlock (s :: done) rest (by omega)
termination_by (ts.length, 1)
decreasing_by
  · exact Prod.Lex.right _ (by omega)
  · exact Prod.Lex.left _ _ (by omega)

end

/-! ## 4. Functions -/

/-- One parameter and those after it, with the parenthesis that closes them, behind the
parameters `done`, the last one first. -/
def readMoreParams {bound : Nat} (done : List String) (ts : List Token)
    (notLonger : ts.length ≤ bound) : Outcome (List String) bound := do
  let ⟨param, rest, _⟩ ← readIdentifier ts
  if done.contains param then
    throw ⟨.duplicateParameter param, ts⟩
  match punctuator? "," rest with
  | some ⟨rest, _⟩ => readMoreParams (param :: done) rest (by omega)
  | none =>
    let ⟨_, rest, _⟩ ← readPunctuator ")" rest
    return ⟨(param :: done).reverse, rest, by omega⟩
termination_by ts.length

/-- The parameters of a function, with the parenthesis that closes them. -/
def readParams (ts : List Token) : Outcome (List String) ts.length :=
  match punctuator? ")" ts with
  | some ⟨rest, shorter⟩ => .ok ⟨[], rest, shorter⟩
  | none => readMoreParams [] ts (Nat.le_refl _)

/-- A function definition. Where its name was read there was a first token, so the size given to
`startOf` does not matter. -/
def readFunction (ts : List Token) : Outcome Function ts.length := do
  let ⟨name, rest, _⟩ ← readIdentifier ts
  let ⟨_, rest, _⟩ ← readPunctuator "(" rest
  let ⟨params, rest, _⟩ ← readParams rest
  let ⟨_, rest, _⟩ ← readPunctuator "\x7b" rest
  let ⟨body, rest, _⟩ ← readBlock [] rest (Nat.le_refl _)
  return ⟨⟨name, startOf 0 ts, params, body⟩, rest, by omega⟩

/-! ## 5. Programs -/

/-- What reading a program came to: the functions read, and where the function after them is
stuck, with the tokens that function starts at, unless the end was reached. -/
structure Progress where
  functions : List Function
  halt : Option (List Token × Stuck)

/-- Reads functions up to the end, behind the functions `done`, the last one first. -/
def readFunctions (done : List Function) (ts : List Token) : Progress :=
  if atEnd ts then ⟨done.reverse, none⟩
  else
    match readFunction ts with
    | .error stuck => ⟨done.reverse, some (ts, stuck)⟩
    | .ok ⟨f, rest, _⟩ => readFunctions (f :: done) rest
termination_by ts.length

/-- Reads a whole program. -/
def readProgram (ts : List Token) : Progress :=
  readFunctions [] ts

end Surface

end StackCompiler
