import StackCompiler.Proofs.Resolution
import StackCompiler.Token

/-!
# The grammar

The grammar of programs as derivations. A derivation relates a list of tokens to the tree it
denotes, and says nothing about how to find the tree.

```
program    := function*
function   := ident "(" params? ")" "{" stmt* "}"
params     := ident ("," ident)*
stmt       := "return" expr ";"
            | "if" "(" expr ")" stmt ("else" stmt)?
            | "for" "(" expr? ";" expr? ";" expr? ")" stmt
            | "{" stmt* "}"
            | expr ";"
expr       := equality ("=" equality)?
equality   := relational (("==" | "!=") relational)*
relational := add (("<" | "<=" | ">" | ">=") add)*
add        := mul (("+" | "-") mul)*
mul        := unary (("*" | "/") unary)*
unary      := ("+" | "-") unary | primary
primary    := "(" expr ")" | ident ("(" args? ")")? | number
args       := expr ("," expr)*
```

The repetitions in the rules of the binary operators are left recursion here, so that these
operators group to the left.

The grammar is ambiguous in one place: an `else` behind several open `if`s may belong to any of
them. `Stmt.ElsesNearest` singles out the trees in which it belongs to the last one.
-/

namespace StackCompiler

/-! ## 1. Statements that an `else` could still extend -/

/-- The statement ends in an `if` that has no `else`. -/
def Stmt.EndsOpen : Stmt → Prop
  | .ret _ => False
  | .expr _ => False
  | .block _ => False
  | .cond _ _ none => True
  | .cond _ _ (some no) => no.EndsOpen
  | .loop _ _ _ body => body.EndsOpen

mutual

/-- Every `else` in the statement belongs to the nearest `if` before it that is still open: what
stands between an `if` and its `else` does not end in an open `if`. -/
def Stmt.ElsesNearest : Stmt → Prop
  | .ret _ => True
  | .expr _ => True
  | .block body => ElsesNearestIn body
  | .cond _ yes none => yes.ElsesNearest
  | .cond _ yes (some no) => ¬ yes.EndsOpen ∧ yes.ElsesNearest ∧ no.ElsesNearest
  | .loop _ _ _ body => body.ElsesNearest

/-- Every `else` in a list of statements belongs to the nearest open `if` before it. -/
def ElsesNearestIn : List Stmt → Prop
  | [] => True
  | s :: rest => s.ElsesNearest ∧ ElsesNearestIn rest

end

namespace Function

/-- Every `else` in the function belongs to the nearest open `if` before it. -/
def ElsesNearest (f : Function) : Prop :=
  ElsesNearestIn f.body

/-- No name occurs twice among the parameters. -/
def ParamsDistinct (f : Function) : Prop :=
  (f.params.map Slot.name).Nodup

end Function

namespace Grammar

/-! ## 2. Operators and variables -/

/-- `Infix n s a b e`: an operator of level `n` is written `s`, and `e` is the tree it makes of
its sides `a` and `b`. "Greater than" is "less than" with the sides exchanged. -/
inductive Infix : Nat → String → Expr → Expr → Expr → Prop
  | mul (a b : Expr) : Infix 1 "*" a b (.binary .mul a b)
  | div (a b : Expr) : Infix 1 "/" a b (.binary .div a b)
  | add (a b : Expr) : Infix 2 "+" a b (.binary .add a b)
  | sub (a b : Expr) : Infix 2 "-" a b (.binary .sub a b)
  | lt (a b : Expr) : Infix 3 "<" a b (.binary .lt a b)
  | le (a b : Expr) : Infix 3 "<=" a b (.binary .le a b)
  | gt (a b : Expr) : Infix 3 ">" a b (.binary .lt b a)
  | ge (a b : Expr) : Infix 3 ">=" a b (.binary .le b a)
  | eq (a b : Expr) : Infix 4 "==" a b (.binary .eq a b)
  | ne (a b : Expr) : Infix 4 "!=" a b (.binary .ne a b)

/-- The punctuator `s` comes first. -/
def Leads (s : String) (ts : List Token) : Prop :=
  ∃ t us, ts = t :: us ∧ t.isPunctuator s

theorem not_leads_nil {s : String} : ¬ Leads s [] := by
  rintro ⟨_, _, h, -⟩
  cases h

theorem leads_cons {s : String} {t : Token} {ts : List Token} :
    Leads s (t :: ts) ↔ t.isPunctuator s := by
  refine ⟨?_, fun h => ⟨t, ts, rfl, h⟩⟩
  rintro ⟨_, _, h, hp⟩
  cases h
  exact hp

instance (s : String) : (ts : List Token) → Decidable (Leads s ts)
  | [] => isFalse not_leads_nil
  | t :: _ => decidable_of_iff (t.isPunctuator s = true) leads_cons.symm

/-- The names of the variables in a list of tokens, one for each occurrence: every identifier
that no opening parenthesis follows. -/
def variableNames : List Token → List String
  | [] => []
  | t :: ts =>
    if t.kind = .ident ∧ ¬ Leads "(" ts then t.text.toList ++ variableNames ts
    else variableNames ts

/-! ## 3. Expressions

Variables live in the slots that `slot` gives to their names. The levels of `Level` are those of
the rules `unary` (0), `mul` (1), `add` (2), `relational` (3) and `equality` (4). -/

mutual

/-- `Assignment slot ts e`: the tokens `ts` are an `expr` that denotes `e`. An assignment is
located at the first token of its left side, and neither of its sides is an assignment. -/
inductive Assignment (slot : String → Nat) : List Token → Expr → Prop
  | plain {ts : List Token} {e : Expr} : Level slot 4 ts e → Assignment slot ts e
  | store {first eq : Token} {ts us : List Token} {a b : Expr} :
      Level slot 4 (first :: ts) a → eq.isPunctuator "=" → Level slot 4 us b →
      Assignment slot (first :: ts ++ eq :: us) (.assign a b first.loc)

/-- `Level slot n ts e`: the tokens `ts` are an expression of the level `n` that denotes `e`.

* `primary`, `plus`, `minus`: the rule `unary`. A plus leaves no node, and a minus subtracts
  from zero.
* `tighter`, `operator`: the rules of the binary operators. The left side is of the operator's own
  level, the right side is one level tighter. -/
inductive Level (slot : String → Nat) : Nat → List Token → Expr → Prop
  | primary {ts : List Token} {e : Expr} : Primary slot ts e → Level slot 0 ts e
  | plus {t : Token} {ts : List Token} {e : Expr} :
      t.isPunctuator "+" → Level slot 0 ts e → Level slot 0 (t :: ts) e
  | minus {t : Token} {ts : List Token} {e : Expr} :
      t.isPunctuator "-" → Level slot 0 ts e →
      Level slot 0 (t :: ts) (.binary .sub (.num 0) e)
  | tighter {n : Nat} {ts : List Token} {e : Expr} :
      Level slot n ts e → Level slot (n + 1) ts e
  | operator {n : Nat} {s : String} {t : Token} {ts us : List Token} {a b e : Expr} :
      Level slot (n + 1) ts a → t.isPunctuator s → Level slot n us b →
      Infix (n + 1) s a b e → Level slot (n + 1) (ts ++ t :: us) e

/-- `Primary slot ts e`: the tokens `ts` are a `primary` that denotes `e`. Parentheses leave no
node. Variables and calls are located at their names. -/
inductive Primary (slot : String → Nat) : List Token → Expr → Prop
  | parens {l r : Token} {ts : List Token} {e : Expr} :
      l.isPunctuator "(" → Assignment slot ts e → r.isPunctuator ")" →
      Primary slot (l :: (ts ++ [r])) e
  | num {t : Token} {value : Int64} : t.kind = .num (some value) → Primary slot [t] (.num value)
  | var {t : Token} {name : String} :
      t.kind = .ident → t.text = some name → Primary slot [t] (.var name (slot name) t.loc)
  | call {t l r : Token} {name : String} {ts : List Token} {args : List Expr} :
      t.kind = .ident → t.text = some name → l.isPunctuator "(" → Arguments slot ts args →
      r.isPunctuator ")" → Primary slot (t :: l :: (ts ++ [r])) (.call name args t.loc)
  | callBare {t l r : Token} {name : String} :
      t.kind = .ident → t.text = some name → l.isPunctuator "(" → r.isPunctuator ")" →
      Primary slot [t, l, r] (.call name [] t.loc)

/-- `Arguments slot ts es`: the tokens `ts` are `args` that denote `es`. -/
inductive Arguments (slot : String → Nat) : List Token → List Expr → Prop
  | last {ts : List Token} {e : Expr} : Assignment slot ts e → Arguments slot ts [e]
  | more {c : Token} {ts us : List Token} {e : Expr} {es : List Expr} :
      Assignment slot ts e → c.isPunctuator "," → Arguments slot us es →
      Arguments slot (ts ++ c :: us) (e :: es)

end

/-! ## 4. Statements -/

/-- `Clause slot ts e`: the tokens `ts` are an `expr?` that denotes `e`. -/
inductive Clause (slot : String → Nat) : List Token → Option Expr → Prop
  | absent : Clause slot [] none
  | present {ts : List Token} {e : Expr} : Assignment slot ts e → Clause slot ts (some e)

mutual

/-- `Statement slot ts s`: the tokens `ts` are a `stmt` that denotes `s`. -/
inductive Statement (slot : String → Nat) : List Token → Stmt → Prop
  | ret {k z : Token} {ts : List Token} {e : Expr} :
      k.isKeyword "return" → Assignment slot ts e → z.isPunctuator ";" →
      Statement slot (k :: (ts ++ [z])) (.ret e)
  | cond {k l r : Token} {ts us : List Token} {test : Expr} {yes : Stmt} :
      k.isKeyword "if" → l.isPunctuator "(" → Assignment slot ts test → r.isPunctuator ")" →
      Statement slot us yes →
      Statement slot (k :: l :: (ts ++ r :: us)) (.cond test yes none)
  | condElse {k l r o : Token} {ts us vs : List Token} {test : Expr} {yes no : Stmt} :
      k.isKeyword "if" → l.isPunctuator "(" → Assignment slot ts test → r.isPunctuator ")" →
      Statement slot us yes → o.isKeyword "else" → Statement slot vs no →
      Statement slot (k :: l :: (ts ++ r :: (us ++ o :: vs))) (.cond test yes (some no))
  | loop {k l y z r : Token} {ts us vs ws : List Token} {start test next : Option Expr}
      {body : Stmt} :
      k.isKeyword "for" → l.isPunctuator "(" → Clause slot ts start → y.isPunctuator ";" →
      Clause slot us test → z.isPunctuator ";" → Clause slot vs next → r.isPunctuator ")" →
      Statement slot ws body →
      Statement slot (k :: l :: (ts ++ y :: (us ++ z :: (vs ++ r :: ws))))
        (.loop start test next body)
  | block {l r : Token} {ts : List Token} {body : List Stmt} :
      l.isPunctuator "\x7b" → Statements slot ts body → r.isPunctuator "\x7d" →
      Statement slot (l :: (ts ++ [r])) (.block body)
  | expr {z : Token} {ts : List Token} {e : Expr} :
      Assignment slot ts e → z.isPunctuator ";" → Statement slot (ts ++ [z]) (.expr e)

/-- `Statements slot ts body`: the tokens `ts` are a `stmt*` that denotes `body`. -/
inductive Statements (slot : String → Nat) : List Token → List Stmt → Prop
  | nil : Statements slot [] []
  | cons {ts us : List Token} {s : Stmt} {body : List Stmt} :
      Statement slot ts s → Statements slot us body → Statements slot (ts ++ us) (s :: body)

end

/-! ## 5. Functions and programs -/

/-- `Parameters ts names`: the tokens `ts` are `params` with these names. -/
inductive Parameters : List Token → List String → Prop
  | last {t : Token} {name : String} :
      t.kind = .ident → t.text = some name → Parameters [t] [name]
  | more {t c : Token} {name : String} {ts : List Token} {names : List String} :
      t.kind = .ident → t.text = some name → c.isPunctuator "," → Parameters ts names →
      Parameters (t :: c :: ts) (name :: names)

/-- `OptParameters ts names`: the tokens `ts` are a `params?` with these names. -/
inductive OptParameters : List Token → List String → Prop
  | absent : OptParameters [] []
  | present {ts : List Token} {names : List String} :
      Parameters ts names → OptParameters ts names

/-- `Definition ts f`: the tokens `ts` are a `function` that denotes `f`. The slots of its frame
are given to the parameters and then to the variables in the order of the tokens. -/
inductive Definition : List Token → Function → Prop
  | intro {t l r o c : Token} {name : String} {ps ts : List Token} {names : List String}
      {frame : Frame} {body : List Stmt} :
      t.kind = .ident → t.text = some name → l.isPunctuator "(" → OptParameters ps names →
      r.isPunctuator ")" → o.isPunctuator "\x7b" → Statements frame.offset ts body →
      c.isPunctuator "\x7d" → frame = Frame.ofNames (names ++ variableNames ts) →
      Definition (t :: l :: (ps ++ r :: o :: (ts ++ [c])))
        { name := name
          loc := t.loc
          params := names.map fun param => ⟨param, frame.offset param⟩
          body := body
          frame := frame
          frameSize := frame.size }

/-- `Program ts p`: the tokens `ts` are a `program` that denotes `p`. -/
inductive Program : List Token → StackCompiler.Program → Prop
  | nil : Program [] []
  | cons {ts us : List Token} {f : Function} {p : StackCompiler.Program} :
      Definition ts f → Program us p → Program (ts ++ us) (f :: p)

end Grammar

end StackCompiler
