import StackCompiler.Program

/-!
# What a program computes

An evaluator of programs that knows nothing of frames and code. Variables are looked up by name in
a store, and every call has a store of its own. Arithmetic wraps around at 64 bits, a division
truncates toward zero, and a comparison gives zero or one.

An evaluation may not end, because calls nest without end or because a loop goes on forever. So the
evaluator has two limits: fuel, of which every node hands one unit less on to its parts, and the
number of rounds that a loop may take. What is left of a block or of a list of arguments counts as a
part of it, but the rounds of a loop come one after another with the same fuel. So the fuel bounds
how deep an evaluation is nested, and not how long it takes. An evaluation that has an end has it
with any limits that suffice.

The language leaves some programs without a meaning: those that read a variable before it is set,
call a function that is not defined or with too few arguments, or go past the end of a body.

Main statement: the value of a call does not depend on the limits (`Program.call_unique`).
-/

namespace StackCompiler

/-! ## 1. Evaluation -/

/-- The ways in which an evaluation can go. -/
inductive Outcome (α : Type) where
  | done (result : α)
  /-- A division has no quotient that is a signed 64-bit integer. -/
  | trapped
  /-- The language does not say what happens. -/
  | meaningless
  /-- A limit is reached. -/
  | unfinished
  deriving DecidableEq

namespace Outcome

/-- The outcome of what follows a result. -/
def bind {α β : Type} : Outcome α → (α → Outcome β) → Outcome β
  | done result, next => next result
  | trapped, _ => trapped
  | meaningless, _ => meaningless
  | unfinished, _ => unfinished

instance : Monad Outcome where
  pure := done
  bind := bind

/-- What comes to a result came to one before. -/
theorem bind_eq_done {α β : Type} {first : Outcome α} {next : α → Outcome β} {b : β} :
    (first >>= next) = done b ↔ ∃ a, first = done a ∧ next a = done b := by
  constructor
  · intro h
    cases first with
    | done a => exact ⟨a, rfl, h⟩
    | trapped => exact nomatch h
    | meaningless => exact nomatch h
    | unfinished => exact nomatch h
  · rintro ⟨a, rfl, h⟩
    exact h

/-- Whatever the first one comes to, the second one comes to as well. -/
def Under {α : Type} (first second : Outcome α) : Prop :=
  ∀ result, first = done result → second = done result

theorem Under.refl {α : Type} (outcome : Outcome α) : outcome.Under outcome :=
  fun _ h => h

theorem Under.bind {α β : Type} {first second : Outcome α} {next next' : α → Outcome β}
    (h : first.Under second) (h' : ∀ a, (next a).Under (next' a)) :
    (first >>= next).Under (second >>= next') := by
  intro b hb
  obtain ⟨a, ha, hb⟩ := bind_eq_done.mp hb
  exact bind_eq_done.mpr ⟨a, h a ha, h' a b hb⟩

end Outcome

/-- The values of the variables of one call, as far as they are set. -/
abbrev Store := String → Option Int64

namespace Store

/-- The store in which no variable is set. -/
def empty : Store :=
  fun _ => none

/-- The store in which a variable has a value. -/
def set (σ : Store) (name : String) (value : Int64) : Store :=
  fun other => if other = name then some value else σ other

/-- The store in which every parameter has the argument at its place. -/
def setArgs (σ : Store) : List Slot → List Int64 → Store
  | param :: params, arg :: args => (σ.set param.name arg).setArgs params args
  | _, _ => σ

end Store

/-- The value of a comparison. -/
def truth (holds : Bool) : Int64 :=
  if holds then 1 else 0

/-- The value of an operation. -/
def Op.compute : Op → Int64 → Int64 → Outcome Int64
  | add, a, b => .done (a + b)
  | sub, a, b => .done (a - b)
  | mul, a, b => .done (a * b)
  | div, a, b => if b = 0 ∨ (a = Int64.minValue ∧ b = -1) then .trapped else .done (a / b)
  | eq, a, b => .done (truth (a == b))
  | ne, a, b => .done (truth (a != b))
  | lt, a, b => .done (truth (a < b))
  | le, a, b => .done (truth (a ≤ b))

/-- The function that a name stands for. -/
def Program.function? (p : Program) (name : String) : Option Function :=
  p.find? (·.name == name)

/-- A function of a program is what its name stands for, if no other function has that name. -/
theorem Program.function?_of_mem {p : Program} (distinct : (p.map (·.name)).Nodup) {f : Function}
    (hf : f ∈ p) : p.function? f.name = some f := by
  unfold function?
  induction p with
  | nil => exact nomatch hf
  | cons g others ih =>
    rw [List.map_cons, List.nodup_cons] at distinct
    rw [List.find?_cons]
    rcases List.mem_cons.mp hf with rfl | hf
    · simp
    · have ne : g.name ≠ f.name := fun same => distinct.1 (same ▸ List.mem_map_of_mem hf)
      rw [show (g.name == f.name) = false by simpa using ne]
      exact ih distinct.2 hf

/-- How a statement ends: with a store for what follows it, or by leaving the function. -/
inductive Exit where
  | next (σ : Store)
  | returned (value : Int64)

/-- Evaluates the rounds of a loop, given how its clauses and its body are evaluated. It goes on for
as long as the test is absent or not zero. -/
def evalRounds (test next : Store → Outcome (Option Int64 × Store)) (body : Store → Outcome Exit) :
    Nat → Store → Outcome Exit
  | 0, _ => .unfinished
  | rounds + 1, σ => do
    let (v, σ) ← test σ
    if v = some 0 then return .next σ
    else
      match ← body σ with
      | .returned v => return .returned v
      | .next σ =>
        let (_, σ) ← next σ
        evalRounds test next body rounds σ

mutual

/-- Evaluates an expression, the left operand before the right one. -/
def Expr.eval (p : Program) (rounds : Nat) : Nat → Store → Expr → Outcome (Int64 × Store)
  | 0, _, _ => .unfinished
  | _ + 1, σ, .num value => return (value, σ)
  | _ + 1, σ, .var name _ _ =>
    match σ name with
    | some value => return (value, σ)
    | none => .meaningless
  | fuel + 1, σ, .binary op lhs rhs => do
    let (a, σ) ← lhs.eval p rounds fuel σ
    let (b, σ) ← rhs.eval p rounds fuel σ
    let value ← op.compute a b
    return (value, σ)
  | fuel + 1, σ, .assign (.var name _ _) value _ => do
    let (v, σ) ← value.eval p rounds fuel σ
    return (v, σ.set name v)
  | _ + 1, _, .assign _ _ _ => .meaningless
  | fuel + 1, σ, .call name args _ => do
    let (values, σ) ← evalArgs p rounds fuel σ args
    let value ← Program.call p rounds fuel name values
    return (value, σ)

/-- Evaluates the arguments of a call from left to right. -/
def evalArgs (p : Program) (rounds : Nat) :
    Nat → Store → List Expr → Outcome (List Int64 × Store)
  | 0, _, _ => .unfinished
  | _ + 1, σ, [] => return ([], σ)
  | fuel + 1, σ, arg :: args => do
    let (value, σ) ← arg.eval p rounds fuel σ
    let (values, σ) ← evalArgs p rounds fuel σ args
    return (value :: values, σ)

/-- Evaluates a clause that may be absent. -/
def evalClause (p : Program) (rounds : Nat) :
    Nat → Store → Option Expr → Outcome (Option Int64 × Store)
  | 0, _, _ => .unfinished
  | _ + 1, σ, none => return (none, σ)
  | fuel + 1, σ, some e => do
    let (value, σ) ← e.eval p rounds fuel σ
    return (some value, σ)

/-- Evaluates a statement. -/
def Stmt.eval (p : Program) (rounds : Nat) : Nat → Store → Stmt → Outcome Exit
  | 0, _, _ => .unfinished
  | fuel + 1, σ, .ret value => do
    let (v, _) ← value.eval p rounds fuel σ
    return .returned v
  | fuel + 1, σ, .expr e => do
    let (_, σ) ← e.eval p rounds fuel σ
    return .next σ
  | fuel + 1, σ, .block body => evalBlock p rounds fuel σ body
  | fuel + 1, σ, .cond test yes no => do
    let (v, σ) ← test.eval p rounds fuel σ
    if v ≠ 0 then yes.eval p rounds fuel σ
    else
      match no with
      | some no => no.eval p rounds fuel σ
      | none => return .next σ
  | fuel + 1, σ, .loop start test next body => do
    let (_, σ) ← evalClause p rounds fuel σ start
    evalRounds (evalClause p rounds fuel · test) (evalClause p rounds fuel · next)
      (Stmt.eval p rounds fuel · body) rounds σ

/-- Evaluates the statements of a block. -/
def evalBlock (p : Program) (rounds : Nat) : Nat → Store → List Stmt → Outcome Exit
  | 0, _, _ => .unfinished
  | _ + 1, σ, [] => return .next σ
  | fuel + 1, σ, s :: rest => do
    match ← s.eval p rounds fuel σ with
    | .returned v => return .returned v
    | .next σ => evalBlock p rounds fuel σ rest

/-- Calls a function. Arguments beyond the parameters are dropped. -/
def Program.call (p : Program) (rounds : Nat) : Nat → String → List Int64 → Outcome Int64
  | 0, _, _ => .unfinished
  | fuel + 1, name, args =>
    match p.function? name with
    | none => .meaningless
    | some f =>
      if args.length < f.params.length then .meaningless
      else do
        match ← evalBlock p rounds fuel (Store.empty.setArgs f.params args) f.body with
        | .returned v => return v
        | .next _ => .meaningless

end

/-! ## 2. Limits -/

/-- Wider limits do not change what the rounds of a loop come to. -/
theorem under_evalRounds {test test' next next' : Store → Outcome (Option Int64 × Store)}
    {body body' : Store → Outcome Exit} (htest : ∀ σ, (test σ).Under (test' σ))
    (hnext : ∀ σ, (next σ).Under (next' σ)) (hbody : ∀ σ, (body σ).Under (body' σ))
    {rounds rounds' : Nat} (le : rounds ≤ rounds') (σ : Store) :
    (evalRounds test next body rounds σ).Under (evalRounds test' next' body' rounds' σ) := by
  induction rounds generalizing rounds' σ with
  | zero => exact fun _ h => nomatch h
  | succ rounds ih =>
    obtain ⟨rounds', rfl⟩ := Nat.exists_eq_add_of_le' (Nat.lt_of_succ_le le)
    refine (htest σ).bind fun ⟨v, σ⟩ => ?_
    dsimp only
    split
    · exact .refl _
    · refine (hbody σ).bind fun exit => ?_
      cases exit with
      | returned v => exact .refl _
      | next σ => exact (hnext σ).bind fun ⟨_, σ⟩ => ih (Nat.le_of_succ_le_succ le) σ

/-- Wider limits do not change what evaluations come to. -/
structure Steady (p : Program) (rounds rounds' fuel fuel' : Nat) : Prop where
  expr : ∀ σ e, (Expr.eval p rounds fuel σ e).Under (Expr.eval p rounds' fuel' σ e)
  args : ∀ σ args, (evalArgs p rounds fuel σ args).Under (evalArgs p rounds' fuel' σ args)
  clause : ∀ σ clause,
    (evalClause p rounds fuel σ clause).Under (evalClause p rounds' fuel' σ clause)
  stmt : ∀ σ stmt, (Stmt.eval p rounds fuel σ stmt).Under (Stmt.eval p rounds' fuel' σ stmt)
  block : ∀ σ body, (evalBlock p rounds fuel σ body).Under (evalBlock p rounds' fuel' σ body)
  call : ∀ name args, (p.call rounds fuel name args).Under (p.call rounds' fuel' name args)

namespace Steady

open Outcome

variable {p : Program} {rounds rounds' fuel fuel' : Nat}

theorem expr_step (ih : Steady p rounds rounds' fuel fuel') (σ : Store) (e : Expr) :
    (Expr.eval p rounds (fuel + 1) σ e).Under (Expr.eval p rounds' (fuel' + 1) σ e) := by
  match e with
  | .num value => exact .refl _
  | .var name offset loc => exact .refl _
  | .binary op lhs rhs =>
    exact (ih.expr σ lhs).bind fun ⟨_, σ⟩ => (ih.expr σ rhs).bind fun _ => .refl _
  | .assign (.var name offset loc) value _ => exact (ih.expr σ value).bind fun _ => .refl _
  | .assign (.num _) _ _ | .assign (.binary ..) _ _ | .assign (.assign ..) _ _
  | .assign (.call ..) _ _ => exact .refl _
  | .call name args _ =>
    exact (ih.args σ args).bind fun ⟨values, _⟩ => (ih.call name values).bind fun _ => .refl _

theorem stmt_step (ih : Steady p rounds rounds' fuel fuel') (le : rounds ≤ rounds') (σ : Store)
    (stmt : Stmt) :
    (Stmt.eval p rounds (fuel + 1) σ stmt).Under (Stmt.eval p rounds' (fuel' + 1) σ stmt) := by
  match stmt with
  | .ret value => exact (ih.expr σ value).bind fun _ => .refl _
  | .expr e => exact (ih.expr σ e).bind fun _ => .refl _
  | .block body => exact ih.block σ body
  | .cond test yes no =>
    refine (ih.expr σ test).bind fun ⟨v, σ⟩ => ?_
    dsimp only
    split
    · exact ih.stmt σ yes
    · cases no with
      | none => exact .refl _
      | some no => exact ih.stmt σ no
  | .loop start test next body =>
    exact (ih.clause σ start).bind fun ⟨_, σ⟩ =>
      under_evalRounds (ih.clause · test) (ih.clause · next) (ih.stmt · body) le σ

theorem call_step (ih : Steady p rounds rounds' fuel fuel') (name : String) (args : List Int64) :
    (p.call rounds (fuel + 1) name args).Under (p.call rounds' (fuel' + 1) name args) := by
  simp only [Program.call]
  split
  · exact .refl _
  · split
    · exact .refl _
    · exact (ih.block _ _).bind fun _ => .refl _

end Steady

theorem steady (p : Program) {rounds rounds' fuel fuel' : Nat} (more : rounds ≤ rounds')
    (le : fuel ≤ fuel') : Steady p rounds rounds' fuel fuel' := by
  -- every evaluation hands one unit less on to all its parts
  induction fuel generalizing fuel' with
  | zero => constructor <;> intros <;> exact fun _ h => nomatch h
  | succ fuel ih =>
    obtain ⟨fuel', rfl⟩ := Nat.exists_eq_add_of_le' (Nat.lt_of_succ_le le)
    have ih := ih (Nat.le_of_succ_le_succ le)
    exact
      { expr := ih.expr_step
        args := fun σ args =>
          match args with
          | [] => .refl _
          | arg :: args =>
            (ih.expr σ arg).bind fun ⟨_, σ⟩ => (ih.args σ args).bind fun _ => .refl _
        clause := fun σ clause =>
          match clause with
          | none => .refl _
          | some e => (ih.expr σ e).bind fun _ => .refl _
        stmt := ih.stmt_step more
        block := fun σ body =>
          match body with
          | [] => .refl _
          | s :: rest => (ih.stmt σ s).bind fun exit =>
            match exit with
            | .returned _ => .refl _
            | .next σ => ih.block σ rest
        call := ih.call_step }

/-- Wider limits do not change the value of a call. -/
theorem Program.call_of_le {p : Program} {rounds rounds' fuel fuel' : Nat}
    (more : rounds ≤ rounds') (le : fuel ≤ fuel') {name : String} {args : List Int64}
    {value : Int64} (h : p.call rounds fuel name args = .done value) :
    p.call rounds' fuel' name args = .done value :=
  (steady p more le).call name args value h

/-- A call has at most one value, with whatever limits. -/
theorem Program.call_unique {p : Program} {rounds rounds' fuel fuel' : Nat} {name : String}
    {args : List Int64} {value value' : Int64} (h : p.call rounds fuel name args = .done value)
    (h' : p.call rounds' fuel' name args = .done value') : value = value' := by
  have both := p.call_of_le (Nat.le_max_left rounds rounds') (Nat.le_max_left fuel fuel') h
  have both' := p.call_of_le (Nat.le_max_right rounds rounds') (Nat.le_max_right fuel fuel') h'
  exact Outcome.done.inj (both.symm.trans both')

/-! ## 3. Calls -/

/-- Arguments have one value each. -/
theorem length_of_evalArgs {p : Program} {rounds fuel : Nat} {σ σ' : Store} {args : List Expr}
    {values : List Int64} (h : evalArgs p rounds fuel σ args = .done (values, σ')) :
    values.length = args.length := by
  induction args generalizing fuel σ values with
  | nil =>
    cases fuel with
    | zero => exact nomatch h
    | succ => cases h; rfl
  | cons arg args ih =>
    cases fuel with
    | zero => exact nomatch h
    | succ =>
      obtain ⟨⟨value, σ₁⟩, -, h⟩ := Outcome.bind_eq_done.mp h
      obtain ⟨⟨values, σ₂⟩, others, h⟩ := Outcome.bind_eq_done.mp h
      cases h
      rw [List.length_cons, List.length_cons, ih others]

/-- A call that has a value is that of a function with a body that returns it. -/
theorem Program.exists_of_call {p : Program} {rounds fuel : Nat} {name : String}
    {args : List Int64} {value : Int64} (h : p.call rounds fuel name args = .done value) :
    ∃ fuel' f, fuel = fuel' + 1 ∧ f ∈ p ∧ f.name = name ∧ f.params.length ≤ args.length ∧
      evalBlock p rounds fuel' (Store.empty.setArgs f.params args) f.body =
        .done (.returned value) := by
  cases fuel with
  | zero => exact nomatch h
  | succ fuel' =>
    rw [Program.call] at h
    split at h
    · exact nomatch h
    · next f found =>
      have named := List.find?_some (p := fun f : Function => f.name == name) found
      split at h
      · exact nomatch h
      · next enough =>
        obtain ⟨exit, eval, h⟩ := Outcome.bind_eq_done.mp h
        cases exit with
        | next σ => exact nomatch h
        | returned v =>
          cases h
          exact ⟨fuel', f, rfl, List.mem_of_find?_eq_some found,
            beq_iff_eq.mp named, Nat.not_lt.mp enough, eval⟩

end StackCompiler
