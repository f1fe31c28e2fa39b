import StackCompiler.Program.Emission

/-!
# Programs that code can be generated for

What emission checks, without the code. A program is admitted if its functions have names of their
own that are not reserved, if the argument registers suffice for all parameters and arguments, if
only variables are assigned to, and if the supply holds a label for every branch, every loop and
every call.

Admission walks a program in the order in which its code is laid out, and takes labels as it goes.
So it stops at the first violation in that order, and labels met before it are taken.

Every branch, every loop and every call has one label number of its own. How many numbers a part
of a program uses is a function of that part.

Main statement: admission takes exactly the labels that are counted here
(`Program.taken_of_admission`), so the parts of a program can be numbered by counting.
-/

namespace StackCompiler

namespace Admission

/-- Takes one label for the function at `owner`. -/
def takeLabel (owner : Nat) (s : Label.Supply) : Admission :=
  (nextLabel owner s).map Prod.snd

theorem require_eq_ok {holds : Bool} {fault : Fault} {loc : Nat} {s s' : Label.Supply} :
    require holds fault loc s = .ok s' ↔ holds = true ∧ s' = s := by
  cases holds <;> simp [require, eq_comm]

theorem takeLabel_eq_ok {owner : Nat} {s s' : Label.Supply} :
    takeLabel owner s = .ok s' ↔ s'.taken = s.taken + 1 := by
  unfold takeLabel nextLabel
  cases h : s.take? with
  | some taken =>
    obtain ⟨number, rest⟩ := taken
    have := (Label.Supply.take?_eq_some.mp h).2
    cases rest
    cases s'
    simp only [Except.map, Except.ok.injEq, Label.Supply.mk.injEq] at this ⊢
    omega
  | none =>
    have := Label.Supply.take?_eq_none.mp h
    have := s'.taken_le
    simp only [Except.map, reduceCtorEq, false_iff]
    omega

/-- A step that goes on after another one went on through a state in between. -/
theorem bind_eq_ok {first : Admission} {next : Label.Supply → Admission} {s : Label.Supply} :
    (first >>= next) = .ok s ↔ ∃ middle, first = .ok middle ∧ next middle = .ok s := by
  cases first with
  | error refusal => simp [bind, Except.bind]
  | ok middle => simp [bind, Except.bind]

end Admission

/-! ## 1. Admission -/

mutual

/-- Admits an expression of the function at `owner`. -/
def Expr.admission (owner : Nat) : Expr → Label.Supply → Admission
  | .num _, s => .ok s
  | .var .., s => .ok s
  | .binary _ lhs rhs, s => do
    let s ← lhs.admission owner s
    rhs.admission owner s
  | .assign target value loc, s => do
    let s ← Admission.require target.isVariable .notAssignable loc s
    value.admission owner s
  | .call name args loc, s => do
    let s ← Admission.require (args.length ≤ argLimit) (.tooManyArguments argLimit) loc s
    let s ← Admission.requireSymbol name loc s
    let s ← admissionOfArgs owner args s
    Admission.takeLabel owner s

/-- Admits the arguments of a call. -/
def admissionOfArgs (owner : Nat) : List Expr → Label.Supply → Admission
  | [], s => .ok s
  | arg :: args, s => do
    let s ← arg.admission owner s
    admissionOfArgs owner args s

end

/-- Admits a clause that may be absent. -/
def admissionOfClause (owner : Nat) (clause : Option Expr) (s : Label.Supply) : Admission :=
  match clause with
  | none => .ok s
  | some e => e.admission owner s

mutual

/-- Admits a statement of the function at `owner`. The third clause of a loop comes after its
body. -/
def Stmt.admission (owner : Nat) : Stmt → Label.Supply → Admission
  | .ret value, s => value.admission owner s
  | .expr e, s => e.admission owner s
  | .block body, s => admissionOfBlock owner body s
  | .cond test yes none, s => do
    let s ← Admission.takeLabel owner s
    let s ← test.admission owner s
    yes.admission owner s
  | .cond test yes (some no), s => do
    let s ← Admission.takeLabel owner s
    let s ← test.admission owner s
    let s ← yes.admission owner s
    no.admission owner s
  | .loop start test next body, s => do
    let s ← Admission.takeLabel owner s
    let s ← admissionOfClause owner start s
    let s ← admissionOfClause owner test s
    let s ← body.admission owner s
    admissionOfClause owner next s

/-- Admits the statements of a block. -/
def admissionOfBlock (owner : Nat) : List Stmt → Label.Supply → Admission
  | [], s => .ok s
  | stmt :: rest, s => do
    let s ← stmt.admission owner s
    admissionOfBlock owner rest s

end

/-- Admits a function after those with the names `defined`. -/
def Function.admission (defined : List String) (f : Function) (s : Label.Supply) : Admission := do
  let s ← Admission.requireSymbol f.name f.loc s
  let s ← Admission.require (!defined.contains f.name) (.redefinition f.name) f.loc s
  let s ← Admission.require (f.params.length ≤ argLimit) (.tooManyParameters argLimit) f.loc s
  admissionOfBlock f.loc f.body s

namespace Program

/-- Admits functions after those with the names `defined`. -/
def admissionAfter (defined : List String) : Program → Label.Supply → Admission
  | [], s => .ok s
  | f :: rest, s => do
    let s ← f.admission defined s
    admissionAfter (f.name :: defined) rest s

/-- Admits a program. -/
def admission (p : Program) (s : Label.Supply) : Admission :=
  p.admissionAfter [] s

end Program

/-! ## 2. Labels used -/

mutual

/-- The number of labels in the code of an expression: one for each call. -/
def Expr.labels : Expr → Nat
  | .num _ => 0
  | .var .. => 0
  | .binary _ lhs rhs => lhs.labels + rhs.labels
  | .assign _ value _ => value.labels
  | .call _ args _ => labelsOfArgs args + 1

/-- The number of labels in the code of arguments. -/
def labelsOfArgs : List Expr → Nat
  | [] => 0
  | arg :: args => arg.labels + labelsOfArgs args

end

/-- The number of labels in the code of a clause that may be absent. -/
def labelsOfClause (clause : Option Expr) : Nat :=
  clause.elim 0 Expr.labels

mutual

/-- The number of labels in the code of a statement: one for each branch, loop and call. -/
def Stmt.labels : Stmt → Nat
  | .ret value => value.labels
  | .expr e => e.labels
  | .block body => labelsOfBlock body
  | .cond test yes none => 1 + test.labels + yes.labels
  | .cond test yes (some no) => 1 + test.labels + yes.labels + no.labels
  | .loop start test next body =>
    1 + labelsOfClause start + labelsOfClause test + body.labels + labelsOfClause next

/-- The number of labels in the code of a block. -/
def labelsOfBlock : List Stmt → Nat
  | [] => 0
  | s :: rest => s.labels + labelsOfBlock rest

end

/-- The number of labels in the code of a function. -/
def Function.labels (f : Function) : Nat :=
  labelsOfBlock f.body

/-- The number of labels in the code of a program. -/
def Program.labels : Program → Nat
  | [] => 0
  | f :: rest => f.labels + Program.labels rest

/-! ## 3. Labels taken -/

open Admission

mutual

/-- Admitting an expression takes the labels of its code. -/
theorem Expr.taken_of_admission {owner : Nat} {e : Expr} {s s' : Label.Supply}
    (h : e.admission owner s = .ok s') : s'.taken = s.taken + e.labels := by
  cases e with
  | num value => cases h; rfl
  | var name offset loc => cases h; rfl
  | binary op lhs rhs =>
    obtain ⟨s₁, h₁, h₂⟩ := bind_eq_ok.mp h
    rw [Expr.taken_of_admission h₂, Expr.taken_of_admission h₁, Expr.labels, Nat.add_assoc]
  | assign target value loc =>
    obtain ⟨s₁, h₁, h₂⟩ := bind_eq_ok.mp h
    obtain ⟨-, rfl⟩ := require_eq_ok.mp h₁
    rw [Expr.taken_of_admission h₂, Expr.labels]
  | call name args loc =>
    obtain ⟨s₁, h₁, h⟩ := bind_eq_ok.mp h
    obtain ⟨s₂, h₂, h⟩ := bind_eq_ok.mp h
    obtain ⟨s₃, h₃, h₄⟩ := bind_eq_ok.mp h
    obtain ⟨-, rfl⟩ := require_eq_ok.mp h₁
    obtain ⟨-, rfl⟩ := require_eq_ok.mp h₂
    rw [takeLabel_eq_ok.mp h₄, taken_of_admissionOfArgs h₃, Expr.labels, Nat.add_assoc]

/-- Admitting arguments takes the labels of their code. -/
theorem taken_of_admissionOfArgs {owner : Nat} {args : List Expr} {s s' : Label.Supply}
    (h : admissionOfArgs owner args s = .ok s') : s'.taken = s.taken + labelsOfArgs args := by
  cases args with
  | nil => cases h; rfl
  | cons arg args =>
    obtain ⟨s₁, h₁, h₂⟩ := bind_eq_ok.mp h
    rw [taken_of_admissionOfArgs h₂, Expr.taken_of_admission h₁, labelsOfArgs, Nat.add_assoc]

end

theorem taken_of_admissionOfClause {owner : Nat} {clause : Option Expr} {s s' : Label.Supply}
    (h : admissionOfClause owner clause s = .ok s') :
    s'.taken = s.taken + labelsOfClause clause := by
  cases clause with
  | none => cases h; rfl
  | some e => exact Expr.taken_of_admission h

mutual

/-- Admitting a statement takes the labels of its code. -/
theorem Stmt.taken_of_admission {owner : Nat} {stmt : Stmt} {s s' : Label.Supply}
    (h : stmt.admission owner s = .ok s') : s'.taken = s.taken + stmt.labels := by
  match stmt with
  | .ret value => exact Expr.taken_of_admission h
  | .expr e => exact Expr.taken_of_admission h
  | .block body => exact taken_of_admissionOfBlock h
  | .cond test yes none =>
    obtain ⟨s₁, h₁, h⟩ := bind_eq_ok.mp h
    obtain ⟨s₂, h₂, h₃⟩ := bind_eq_ok.mp h
    have := takeLabel_eq_ok.mp h₁
    have := Expr.taken_of_admission h₂
    have := Stmt.taken_of_admission h₃
    rw [Stmt.labels]
    omega
  | .cond test yes (some no) =>
    obtain ⟨s₁, h₁, h⟩ := bind_eq_ok.mp h
    obtain ⟨s₂, h₂, h⟩ := bind_eq_ok.mp h
    obtain ⟨s₃, h₃, h₄⟩ := bind_eq_ok.mp h
    have := takeLabel_eq_ok.mp h₁
    have := Expr.taken_of_admission h₂
    have := Stmt.taken_of_admission h₃
    have := Stmt.taken_of_admission h₄
    rw [Stmt.labels]
    omega
  | .loop start test next body =>
    obtain ⟨s₁, h₁, h⟩ := bind_eq_ok.mp h
    obtain ⟨s₂, h₂, h⟩ := bind_eq_ok.mp h
    obtain ⟨s₃, h₃, h⟩ := bind_eq_ok.mp h
    obtain ⟨s₄, h₄, h₅⟩ := bind_eq_ok.mp h
    have := takeLabel_eq_ok.mp h₁
    have := taken_of_admissionOfClause h₂
    have := taken_of_admissionOfClause h₃
    have := Stmt.taken_of_admission h₄
    have := taken_of_admissionOfClause h₅
    rw [Stmt.labels]
    omega

/-- Admitting a block takes the labels of its code. -/
theorem taken_of_admissionOfBlock {owner : Nat} {body : List Stmt} {s s' : Label.Supply}
    (h : admissionOfBlock owner body s = .ok s') : s'.taken = s.taken + labelsOfBlock body := by
  match body with
  | [] => cases h; rfl
  | stmt :: rest =>
    obtain ⟨s₁, h₁, h₂⟩ := bind_eq_ok.mp h
    have := Stmt.taken_of_admission h₁
    have := taken_of_admissionOfBlock h₂
    rw [labelsOfBlock]
    omega

end

/-- Admitting a function takes the labels of its code. -/
theorem Function.taken_of_admission {defined : List String} {f : Function}
    {s s' : Label.Supply} (h : f.admission defined s = .ok s') :
    s'.taken = s.taken + f.labels := by
  obtain ⟨s₁, h₁, h⟩ := bind_eq_ok.mp h
  obtain ⟨s₂, h₂, h⟩ := bind_eq_ok.mp h
  obtain ⟨s₃, h₃, h₄⟩ := bind_eq_ok.mp h
  obtain ⟨-, rfl⟩ := require_eq_ok.mp h₁
  obtain ⟨-, rfl⟩ := require_eq_ok.mp h₂
  obtain ⟨-, rfl⟩ := require_eq_ok.mp h₃
  exact taken_of_admissionOfBlock h₄

theorem Program.taken_of_admissionAfter {defined : List String} {p : Program}
    {s s' : Label.Supply} (h : p.admissionAfter defined s = .ok s') :
    s'.taken = s.taken + p.labels := by
  induction p generalizing defined s with
  | nil => cases h; rfl
  | cons f rest ih =>
    obtain ⟨s₁, h₁, h₂⟩ := bind_eq_ok.mp h
    have := Function.taken_of_admission h₁
    have := ih h₂
    rw [Program.labels]
    omega

/-- Admitting a program takes the labels of its code. -/
theorem Program.taken_of_admission {p : Program} {s s' : Label.Supply}
    (h : p.admission s = .ok s') : s'.taken = s.taken + p.labels :=
  Program.taken_of_admissionAfter h

end StackCompiler
