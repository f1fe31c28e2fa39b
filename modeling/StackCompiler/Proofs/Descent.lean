import Mathlib
import StackCompiler.Proofs.Endings

/-!
# Reading by position

The readers hand on the tokens that are left. This module follows the same rules by position: a call
of a rule starts at a position in a list of tokens, looks at tokens from there on, and ends at a
later position or stops. Every call is counted, every position that is looked at is noted down, and
calls may nest only as deep as a budget allows. Nothing about the calls makes it plain that they
come to an end or stay among the tokens, so what they come to is a question about them, and not a
matter of how they are written.

The main definitions are these.
* `Rule`: the rules of the grammar, and the loops in them.
* `step`: what one call does, apart from the calls that it makes. The tokens are not given to it, so
  that all it knows of them is what it looked at.
* `look`: a look at a position in a list of tokens, which is noted down.
* `run`: the calls of a rule within a budget.
* `Follows`: a sequence of calls does what a reader does, goes forward only, looks at nothing
  outside of the stretch that it goes, and makes no more calls than twelve for each token that it
  passes.
-/

namespace StackCompiler

namespace Surface

/-! ## 1. Rules -/

/-- The rules by which programs are read, one for each kind of phrase, and the loops that are part
of them. -/
inductive Rule where
  /-- The functions up to the end. -/
  | program
  | function
  /-- The parameters behind those in `done`. -/
  | params (done : List String)
  /-- The statements up to a closing brace. -/
  | block
  | stmt
  /-- An expression that may be absent, and the punctuator behind it. -/
  | clause (ending : String)
  | exprStmt
  | expr
  | assignment
  /-- The operators of a level and of all tighter ones. -/
  | level (n : Fin (maxLevel + 1))
  /-- Operators that are one level looser than `n`, with their right sides. -/
  | chain (n : Fin maxLevel)
  | primary
  /-- The arguments of a call up to its closing parenthesis. -/
  | args
  /-- The arguments from one that has to come. -/
  | moreArgs

/-- The position at which calls stop, and why. -/
structure Stop where
  fault : Fault
  pos : Nat

/-- What calls leave behind: how many they were, and the positions that were looked at, the last one
first. -/
structure Trace where
  calls : Nat
  looks : List Nat

/-- Calls that leave a trace, and that may be given up for want of a budget. -/
abbrev Descent (α : Type) :=
  ExceptT Stop (StateT Trace Option) α

/-- The place of a stop as the readers tell it. -/
def Stop.stuck (tokens : List Token) (s : Stop) : Stuck :=
  ⟨s.fault, tokens.drop s.pos⟩

/-- The stop at a position where something else was wanted than the token `t`. -/
def Stop.wanting (wanted : Wanted) (pos : Nat) (t : Option Token) : Stop :=
  match Token.describe t with
  | some found => ⟨.unexpected wanted found, pos⟩
  | none => ⟨.tornToken, pos⟩

/-- There is a token, and it has the property `p`. -/
def stands (p : Token → Bool) (t : Option Token) : Bool :=
  t.any p

/-- There is an operator of a level. -/
def standsOperator (level : Nat) (t : Option Token) : Bool :=
  stands (fun t => t.kind == .punctuator && (t.text.bind (Op.ofSpelling? level)).isSome) t

/-- The name that the token is. -/
def named? (t : Option Token) : Option String :=
  t.bind fun t => if t.kind = .ident then t.text else none

/-- There is an end marker, or no token. -/
def isEnd (t : Option Token) : Bool :=
  t.all (·.kind == .eof)

section Rules

variable (peek : Nat → Descent (Option Token))

/-- Stops where something else was wanted, and looks at what stands there to name it. -/
def refuse (wanted : Wanted) (pos : Nat) : Descent Nat := do
  throw (.wanting wanted pos (← peek pos))

/-- Passes a punctuator that has to come. -/
def skip (s : String) (pos : Nat) : Descent Nat := do
  if stands (·.isPunctuator s) (← peek pos) then pure (pos + 1)
  else refuse peek (.punctuator s) pos

/-- What a call of a rule does at a position, where `peek` looks at a token and `call` stands for
the calls that it makes in turn. -/
def step (call : Rule → Nat → Descent Nat) : Rule → Nat → Descent Nat
  | .program, pos => do
    if isEnd (← peek pos) then pure pos
    else
      let pos ← call .function pos
      call .program pos
  | .function, pos => do
    match named? (← peek pos) with
    | none => refuse peek .identifier pos
    | some _ =>
      let pos ← skip peek "(" (pos + 1)
      let next ← peek pos
      let pos ←
        (if stands (·.isPunctuator ")") next then pure (pos + 1) else call (.params []) pos)
      let pos ← skip peek "\x7b" pos
      call .block pos
  | .params done, pos => do
    match named? (← peek pos) with
    | none => refuse peek .identifier pos
    | some name =>
      if done.contains name then throw ⟨.duplicateParameter name, pos⟩
      else if stands (·.isPunctuator ",") (← peek (pos + 1)) then
        call (.params (name :: done)) (pos + 2)
      else skip peek ")" (pos + 1)
  | .block, pos => do
    if stands (·.isPunctuator "\x7d") (← peek pos) then pure (pos + 1)
    else
      let next ← peek pos
      let pos ← (if isEnd next then skip peek "\x7d" pos else pure pos)
      let pos ← call .stmt pos
      call .block pos
  | .stmt, pos => do
    if stands (·.isKeyword "return") (← peek pos) then
      let pos ← call .expr (pos + 1)
      skip peek ";" pos
    else if stands (·.isKeyword "if") (← peek pos) then
      let pos ← skip peek "(" (pos + 1)
      let pos ← call .expr pos
      let pos ← skip peek ")" pos
      let pos ← call .stmt pos
      if stands (·.isKeyword "else") (← peek pos) then call .stmt (pos + 1) else pure pos
    else if stands (·.isKeyword "for") (← peek pos) then
      let pos ← skip peek "(" (pos + 1)
      let pos ← call (.clause ";") pos
      let pos ← call (.clause ";") pos
      let pos ← call (.clause ")") pos
      call .stmt pos
    else if stands (·.isPunctuator "\x7b") (← peek pos) then call .block (pos + 1)
    else call .exprStmt pos
  | .clause ending, pos => do
    if stands (·.isPunctuator ending) (← peek pos) then pure (pos + 1)
    else
      let pos ← call .expr pos
      skip peek ending pos
  | .exprStmt, pos => do
    let pos ← call .expr pos
    skip peek ";" pos
  | .expr, pos => call .assignment pos
  | .assignment, pos => do
    -- the place of an assignment is that of its first token
    let _ ← peek pos
    let pos ← call (.level (Fin.last maxLevel)) pos
    if stands (·.isPunctuator "=") (← peek pos) then call (.level (Fin.last maxLevel)) (pos + 1)
    else pure pos
  | .level ⟨0, h⟩, pos => do
    if stands (·.isPunctuator "+") (← peek pos) then call (.level ⟨0, h⟩) (pos + 1)
    else if stands (·.isPunctuator "-") (← peek pos) then call (.level ⟨0, h⟩) (pos + 1)
    else call .primary pos
  | .level ⟨n + 1, h⟩, pos => do
    let pos ← call (.level ⟨n, Nat.lt_of_succ_lt h⟩) pos
    call (.chain ⟨n, Nat.lt_of_succ_lt_succ h⟩) pos
  | .chain n, pos => do
    if standsOperator (n + 1) (← peek pos) then
      let pos ← call (.level n.castSucc) (pos + 1)
      call (.chain n) pos
    else pure pos
  | .primary, pos => do
    if stands (·.isPunctuator "(") (← peek pos) then
      let pos ← call .expr (pos + 1)
      skip peek ")" pos
    else
      match named? (← peek pos) with
      | some _ =>
        if stands (·.isPunctuator "(") (← peek (pos + 1)) then call .args (pos + 2)
        else pure (pos + 1)
      | none =>
        match (← peek pos).map Token.kind with
        | some (.num (some _)) => pure (pos + 1)
        | some (.num none) => throw ⟨.numberWithoutValue, pos⟩
        | some .ident | some .punctuator | some .keyword | some .eof | none =>
          refuse peek .number pos
  | .args, pos => do
    if stands (·.isPunctuator ")") (← peek pos) then pure (pos + 1) else call .moreArgs pos
  | .moreArgs, pos => do
    let pos ← call .assignment pos
    if stands (·.isPunctuator ",") (← peek pos) then call .moreArgs (pos + 1)
    else skip peek ")" pos

end Rules

/-- The token at a position, if there is one. That it was looked at is noted down. -/
def look (tokens : List Token) (pos : Nat) : Descent (Option Token) := do
  modify fun trace => { trace with looks := pos :: trace.looks }
  return tokens[pos]?

/-- A call of a rule at a position. It is given up if calls nest deeper than the budget. -/
def run (tokens : List Token) : Nat → Rule → Nat → Descent Nat
  | 0, _, _ => ExceptT.mk fun _ => none
  | budget + 1, rule, pos => do
    modify fun trace => { trace with calls := trace.calls + 1 }
    step (look tokens) (run tokens budget) rule pos

/-! ## 2. What calls come to -/

/-- From a position up to another there are tokens, and no end marker is among them. -/
structure Passes (tokens : List Token) (pos q : Nat) : Prop where
  le : pos ≤ q
  inside : q ≤ tokens.length
  noEnd : ∀ i t, pos ≤ i → i < q → tokens[i]? = some t → t.kind ≠ .eof

/-- What is said of a stop is said of the token at its position, or of the end where there is none.

* `unexpected`: the token that was found in place of another is named.
* `duplicate`: the parameter that stands there is named.
* `valueless`: there stands a number without a value. -/
inductive Stop.Told (tokens : List Token) : Stop → Prop
  | unexpected {wanted : Wanted} {found : String} {pos : Nat} :
      Token.describe tokens[pos]? = some found → Told tokens ⟨.unexpected wanted found, pos⟩
  | duplicate {t : Token} {name : String} {pos : Nat} :
      tokens[pos]? = some t → t.kind = .ident → t.text = some name →
      Told tokens ⟨.duplicateParameter name, pos⟩
  | valueless {t : Token} {pos : Nat} :
      tokens[pos]? = some t → t.kind = .num none → Told tokens ⟨.numberWithoutValue, pos⟩

/-- What calls leave behind that are made after others. -/
def Trace.then (before after : Trace) : Trace :=
  ⟨before.calls + after.calls, after.looks ++ before.looks⟩

/-- All looks are at positions from `pos` up to `q`. -/
def Trace.Within (trace : Trace) (pos q : Nat) : Prop :=
  ∀ i ∈ trace.looks, pos ≤ i ∧ i ≤ q

/-- `Ends tokens pos spare rank o out made`: what is called at `pos` ends with `out` and leaves
`made` behind, and a reader that starts there has the outcome `o`. No look is at a position in front
of `pos` or behind the one where the calls end.

* `reached`: the position that is reached is where the tokens begin that the reader leaves. The
  calls are `spare` fewer than twelve for each token passed.
* `stopped`: the reader stops where the calls do. The calls are up to `rank` more. -/
inductive Ends {α : Type} {bound : Nat} (tokens : List Token) (pos : Nat) (spare : Int) (rank : Nat)
    (o : Outcome α bound) : Except Stop Nat → Trace → Prop
  | reached {q : Nat} {made : Trace} {v : α} :
      o.Yields v (tokens.drop q) → Passes tokens pos q → made.Within pos q →
      made.calls + spare ≤ 12 * ((q : Int) - pos) → Ends tokens pos spare rank o (.ok q) made
  | stopped {s : Stop} {made : Trace} :
      o.Fails (s.stuck tokens) → Passes tokens pos s.pos → s.Told tokens →
      made.Within pos s.pos → made.calls ≤ 12 * (s.pos - pos) + rank →
      Ends tokens pos spare rank o (.error s) made

/-- Calls from `pos` on are not given up, and they end where a reader with the outcome `o` does. -/
def Follows {α : Type} {bound : Nat} (tokens : List Token) (pos : Nat) (spare : Int) (rank : Nat)
    (x : Descent Nat) (o : Outcome α bound) : Prop :=
  ∀ before, ∃ out made, x.run.run before = some (out, before.then made) ∧
    Ends tokens pos spare rank o out made

section Follows

variable {α β : Type} {bound bound' : Nat} {tokens : List Token} {pos q : Nat} {a c s : Int}
  {b d r : Nat} {x : Descent Nat} {f : Nat → Descent Nat} {o : Outcome α bound}
  {k : Reading α bound → Outcome β bound'}

namespace Passes

theorem refl (inside : pos ≤ tokens.length) : Passes tokens pos pos :=
  ⟨Nat.le_refl _, inside, fun _ _ le lt => absurd le (Nat.not_le.mpr lt)⟩

theorem trans {p : Nat} (h : Passes tokens pos q) (h' : Passes tokens q p) :
    Passes tokens pos p := by
  refine ⟨h.le.trans h'.le, h'.inside, fun i t le lt at_i => ?_⟩
  rcases Nat.lt_or_ge i q with below | above
  · exact h.noEnd i t le below at_i
  · exact h'.noEnd i t above lt at_i

theorem next {t : Token} (at_pos : tokens[pos]? = some t) (other : t.kind ≠ .eof) :
    Passes tokens pos (pos + 1) := by
  obtain ⟨lt, -⟩ := List.getElem?_eq_some_iff.mp at_pos
  refine ⟨Nat.le_succ _, lt, fun i u le below at_i => ?_⟩
  obtain rfl : i = pos := Nat.le_antisymm (Nat.le_of_lt_succ below) le
  rw [Option.some.inj (at_i.symm.trans at_pos)]
  exact other

end Passes

/-- Tokens are left behind a position. -/
theorem drop_eq_cons {t : Token} (at_pos : tokens[pos]? = some t) :
    tokens.drop pos = t :: tokens.drop (pos + 1) := by
  obtain ⟨lt, rfl⟩ := List.getElem?_eq_some_iff.mp at_pos
  exact List.drop_eq_getElem_cons lt

theorem lt_of_length_drop (h : (tokens.drop q).length < (tokens.drop pos).length) : pos < q := by
  rw [List.length_drop, List.length_drop] at h
  omega

/-- Calls one after another: the later ones are made unless the earlier ones stopped. -/
theorem run_bind (x : Descent Nat) (f : Nat → Descent Nat) (before : Trace) :
    (x >>= f).run.run before = x.run.run before >>= fun
      | (.ok q, made) => (f q).run.run made
      | (.error stop, made) => some (.error stop, made) := by
  rw [ExceptT.run_bind, StateT.run_bind]
  refine congrArg _ (funext ?_)
  rintro ⟨_ | _, _⟩ <;> rfl

theorem Trace.then_assoc (a b c : Trace) : (a.then b).then c = a.then (b.then c) := by
  simp [Trace.then, Nat.add_assoc]

namespace Trace.Within

variable {trace later : Trace} {p : Nat}

theorem none {calls : Nat} : Trace.Within ⟨calls, []⟩ pos q :=
  fun _ never => absurd never List.not_mem_nil

theorem widen (h : trace.Within pos q) (before : p ≤ pos) : trace.Within p q :=
  fun i hi => ⟨before.trans (h i hi).1, (h i hi).2⟩

/-- Looks on two stretches one behind the other. -/
theorem trans (h : trace.Within pos q) (h' : later.Within q p) (le : pos ≤ q) (le' : q ≤ p) :
    (trace.then later).Within pos p := by
  intro i hi
  rcases List.mem_append.mp hi with late | early
  · exact ⟨le.trans (h' i late).1, (h' i late).2⟩
  · exact ⟨(h i early).1, (h i early).2.trans le'⟩

end Trace.Within

namespace Follows

theorem stay {v : α} (yields : o.Yields v (tokens.drop pos)) (inside : pos ≤ tokens.length)
    (fits : s ≤ 0) : Follows tokens pos s r (pure pos) o :=
  fun _ => ⟨.ok pos, ⟨0, []⟩, rfl, .reached yields (.refl inside) .none (by simpa using fits)⟩

theorem pass {v : α} (yields : o.Yields v (tokens.drop (pos + 1)))
    (passed : Passes tokens pos (pos + 1)) (fits : s ≤ 12) :
    Follows tokens pos s r (pure (pos + 1)) o :=
  fun _ => ⟨.ok (pos + 1), ⟨0, []⟩, rfl,
    .reached yields passed .none (by simp only [Nat.cast_add]; omega)⟩

theorem stop {stop : Stop} (fails : o.Fails (stop.stuck tokens))
    (passes : Passes tokens pos stop.pos) (told : stop.Told tokens) :
    Follows tokens pos s r (throw stop) o :=
  fun _ => ⟨.error stop, ⟨0, []⟩, rfl, .stopped fails passes told .none (Nat.zero_le _)⟩

/-- Before the calls something is noted down at the position where they start. -/
theorem noted {y : Descent Nat} {note : Trace} (h : Follows tokens pos a b y o)
    (here : note.Within pos pos) (fits : s + note.calls ≤ a ∧ b + note.calls ≤ r)
    (noting : ∀ before, x.run.run before = y.run.run (before.then note)) :
    Follows tokens pos s r x o := by
  intro before
  obtain ⟨out, made, run, ends⟩ := h (before.then note)
  have calls : (note.then made).calls = note.calls + made.calls := rfl
  refine ⟨out, note.then made, by rw [noting, run, Trace.then_assoc], ?_⟩
  cases ends with
  | reached yields passes within few =>
    exact .reached yields passes (here.trans within (Nat.le_refl _) passes.le) (by omega)
  | stopped fails passes told within few =>
    exact .stopped fails passes told (here.trans within (Nat.le_refl _) passes.le) (by omega)

/-- What is done with the token at a position is done behind a look at it. -/
theorem looked {f : Option Token → Descent Nat} (h : Follows tokens pos s r (f tokens[pos]?) o) :
    Follows tokens pos s r (look tokens pos >>= f) o := by
  have here : Trace.Within ⟨0, [pos]⟩ pos pos := by
    simp [Trace.Within]
  exact h.noted here ⟨(Int.add_zero s).le, Nat.le_refl _⟩ fun _ => rfl

/-- A call is counted. -/
theorem counted (h : Follows tokens pos (s + 1) r x o) :
    Follows tokens pos s (r + 1)
      (do modify (fun trace : Trace => { trace with calls := trace.calls + 1 }); x) o := by
  have here : Trace.Within ⟨1, []⟩ pos pos := .none
  exact h.noted here ⟨Int.le_refl _, Nat.le_refl _⟩ fun _ => rfl

/-- Calls that start behind a token that was passed already. -/
theorem next (h : Follows tokens (pos + 1) a b x o) (passed : Passes tokens pos (pos + 1))
    (fits : s ≤ a + 12 ∧ b ≤ r + 12) : Follows tokens pos s r x o := by
  intro before
  obtain ⟨out, made, run, ends⟩ := h before
  refine ⟨out, made, run, ?_⟩
  cases ends with
  | reached yields further within few =>
    exact .reached yields (passed.trans further) (within.widen passed.le) (by omega)
  | stopped fails further told within few =>
    have le := further.le
    exact .stopped fails (passed.trans further) told (within.widen passed.le) (by omega)

theorem weaken (h : Follows tokens pos a b x o) (fits : s ≤ a ∧ b ≤ r) :
    Follows tokens pos s r x o := by
  intro before
  obtain ⟨out, made, run, ends⟩ := h before
  refine ⟨out, made, run, ?_⟩
  cases ends with
  | reached yields passes within few => exact .reached yields passes within (by omega)
  | stopped fails passes told within few => exact .stopped fails passes told within (by omega)

/-- Calls one after another follow a reader that reads on behind what another one has read. -/
theorem bind (hx : Follows tokens pos a b x o)
    (hf : ∀ q v lt, pos ≤ q → q ≤ tokens.length →
      Follows tokens q c d (f q) (k ⟨v, tokens.drop q, lt⟩))
    (fits : s ≤ a + c ∧ b ≤ r ∧ d ≤ a + r) : Follows tokens pos s r (x >>= f) (o >>= k) := by
  intro before
  obtain ⟨out, made, run, ends⟩ := hx before
  rw [run_bind, run]
  cases ends with
  | @reached q _ v yields passes within few =>
    obtain ⟨lt, rfl⟩ := yields
    have le := passes.le
    obtain ⟨out, more, run, ends⟩ := hf q v lt le passes.inside (before.then made)
    have calls : (made.then more).calls = made.calls + more.calls := rfl
    refine ⟨out, made.then more, by rw [← Trace.then_assoc]; exact run, ?_⟩
    cases ends with
    | reached yields further within' few' =>
      exact .reached yields (passes.trans further) (within.trans within' le further.le) (by omega)
    | stopped fails further told within' few' =>
      have le' := further.le
      exact .stopped fails (passes.trans further) told (within.trans within' le le') (by omega)
  | stopped fails passes told within few =>
    exact ⟨_, made, rfl, .stopped (fails_bind.mpr (.inl fails)) passes told within (by omega)⟩

/-- Nothing is done behind calls that stop. -/
theorem halt {stuck : Stuck} {o' : Outcome β bound'} (hx : Follows tokens pos a b x o)
    (fails : o.Fails stuck) (fails' : o'.Fails stuck) (fits : b ≤ r) :
    Follows tokens pos s r (x >>= f) o' := by
  intro before
  obtain ⟨out, made, run, ends⟩ := hx before
  rw [run_bind, run]
  cases fails
  cases ends with
  | reached yields =>
    obtain ⟨_, never⟩ := yields
    cases never
  | stopped same passes told within few =>
    cases same
    exact ⟨_, made, rfl, .stopped fails' passes told within (by omega)⟩

/-- Reading on behind what was read without a call. -/
theorem behind {v : α} (yields : o.Yields v (tokens.drop q))
    (h : ∀ lt, Follows tokens pos s r x (k ⟨v, tokens.drop q, lt⟩)) :
    Follows tokens pos s r x (o >>= k) := by
  obtain ⟨lt, rfl⟩ := yields
  exact h lt

/-- What is made of the tree that was read does not matter. -/
theorem wrap (hx : Follows tokens pos s r x o)
    (hk : ∀ v rest lt, ∃ w, (k ⟨v, rest, lt⟩).Yields w rest) :
    Follows tokens pos s r x (o >>= k) := by
  intro before
  obtain ⟨out, made, run, ends⟩ := hx before
  refine ⟨out, made, run, ?_⟩
  cases ends with
  | @reached q _ v yields passes within few =>
    obtain ⟨lt, rfl⟩ := yields
    obtain ⟨w, yields⟩ := hk v _ lt
    exact .reached yields passes within few
  | stopped fails passes told within few =>
    exact .stopped (fails_bind.mpr (.inl fails)) passes told within few

end Follows

end Follows

end Surface

end StackCompiler
