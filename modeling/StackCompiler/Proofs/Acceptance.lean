import Mathlib
import StackCompiler.Proofs.Demands
import StackCompiler.Proofs.Parts

/-!
# Accepted programs

For which programs a listing is generated, what is reported about the others, and which labels are
taken in either case.

Main statement: a program is accepted exactly if its names, parameters, calls and targets are as
they have to be and there is a label for every branch, loop and call; otherwise the first unmet
demand is reported, and the labels demanded before it stay taken (`Program.generate_exact`).
-/

namespace StackCompiler

open Demand (AllMet FirstUnmet)

/-! ## 1. Acceptable programs -/

/-- What an expression has to be like by itself, whatever is inside it. -/
def Expr.Proper : Expr → Prop
  | .call name args _ => args.length ≤ 6 ∧ Symbol.isReserved name = false
  | .assign target _ _ => target.isVariable = true
  | _ => True

/-- The names of the functions differ and are not reserved, six registers suffice for the
parameters of every function and for the arguments of every call, no call has a reserved name, and
only variables are assigned to. -/
structure Program.Acceptable (p : Program) : Prop where
  distinct : (p.map (·.name)).Nodup
  names : ∀ f ∈ p, Symbol.isReserved f.name = false
  params : ∀ f ∈ p, f.params.length ≤ 6
  calls : ∀ name args loc, .call name args loc ∈ p.exprs →
    args.length ≤ 6 ∧ Symbol.isReserved name = false
  targets : ∀ target value loc, .assign target value loc ∈ p.exprs → target.isVariable = true

/-! ## 2. Conditions that hold -/

namespace Demand

/-- All conditions among the demands hold. -/
def Granted (ds : List Demand) : Prop :=
  ∀ holds fault loc, condition holds fault loc ∈ ds → holds = true

@[simp] theorem granted_nil : Granted [] := by
  intro holds fault loc h
  cases h

@[simp] theorem granted_append {xs ys : List Demand} :
    Granted (xs ++ ys) ↔ Granted xs ∧ Granted ys := by
  unfold Granted
  simp only [List.mem_append, or_imp, forall_and]

@[simp] theorem granted_label {owner : Nat} {ds : List Demand} :
    Granted (label owner :: ds) ↔ Granted ds := by
  unfold Granted
  simp

@[simp] theorem granted_condition {holds : Bool} {fault : Fault} {loc : Nat} {ds : List Demand} :
    Granted (condition holds fault loc :: ds) ↔ holds = true ∧ Granted ds := by
  unfold Granted
  constructor
  · intro h
    exact ⟨h _ _ _ List.mem_cons_self, fun _ _ _ hd => h _ _ _ (List.mem_cons_of_mem _ hd)⟩
  · rintro ⟨first, others⟩ holds' fault' loc' hd
    rcases List.mem_cons.mp hd with heq | hd
    · cases heq
      exact first
    · exact others _ _ _ hd

/-- Demands are all met exactly if the conditions hold and there are labels enough. -/
theorem allMet_iff {taken : Nat} {ds : List Demand} (le : taken ≤ 17576) :
    AllMet taken ds ↔ Granted ds ∧ taken + labels ds ≤ 17576 := by
  induction ds generalizing taken with
  | nil => simpa [allMet_nil, labels] using le
  | cons d ds ih =>
    rw [allMet_cons, labels_cons d ds, ← Nat.add_assoc]
    cases d with
    | label owner =>
      rw [granted_label]
      constructor
      · rintro ⟨met, mets⟩
        exact (ih met).mp mets
      · rintro ⟨granted, fits⟩
        have met : taken + 1 ≤ 17576 := Nat.le_trans (Nat.le_add_right _ _) fits
        exact ⟨met, (ih met).mpr ⟨granted, fits⟩⟩
    | condition holds fault loc =>
      rw [granted_condition, and_assoc]
      exact and_congr_right fun _ => ih le

end Demand

open Demand (Granted labels labels_append labels_label labels_condition)

mutual

/-- The conditions of an expression hold exactly if all its parts are proper. -/
theorem Expr.granted_demands (owner : Nat) (e : Expr) :
    Granted (e.demands owner) ↔ ∀ x ∈ e.parts, x.Proper := by
  cases e with
  | num value => simp [Expr.demands, Expr.parts, Expr.Proper]
  | var name offset loc => simp [Expr.demands, Expr.parts, Expr.Proper]
  | binary op lhs rhs =>
    rw [Expr.demands, Demand.granted_append, lhs.granted_demands, rhs.granted_demands]
    simp [Expr.parts, Expr.Proper, or_imp, forall_and]
  | assign target value loc =>
    rw [Expr.demands, Demand.granted_condition, value.granted_demands, Expr.parts,
      List.forall_mem_cons, List.forall_mem_append]
    refine and_congr_right fun isVar => ⟨fun h => ⟨?_, h⟩, fun h => h.2⟩
    -- a target that is a variable has no other part
    cases target with
    | var name offset loc => simp [Expr.parts, Expr.Proper]
    | num | binary | assign | call => cases isVar
  | call name args loc =>
    rw [Expr.demands, Demand.granted_condition, Demand.granted_condition, Demand.granted_append,
      granted_demandsOfArgs, Expr.parts, List.forall_mem_cons]
    simp [Expr.Proper, and_assoc]

theorem granted_demandsOfArgs (owner : Nat) (args : List Expr) :
    Granted (demandsOfArgs owner args) ↔ ∀ x ∈ partsOfArgs args, x.Proper := by
  cases args with
  | nil => simp [demandsOfArgs, partsOfArgs]
  | cons arg args =>
    rw [demandsOfArgs, Demand.granted_append, arg.granted_demands, granted_demandsOfArgs,
      partsOfArgs, List.forall_mem_append]

end

theorem granted_demandsOfClause (owner : Nat) (clause : Option Expr) :
    Granted (demandsOfClause owner clause) ↔ ∀ x ∈ partsOfClause clause, x.Proper := by
  cases clause with
  | none => simp [demandsOfClause, partsOfClause]
  | some e => exact e.granted_demands owner

mutual

theorem Stmt.granted_demands (owner : Nat) (stmt : Stmt) :
    Granted (stmt.demands owner) ↔ ∀ x ∈ stmt.exprs, x.Proper := by
  match stmt with
  | .ret value => exact value.granted_demands owner
  | .expr e => exact e.granted_demands owner
  | .block body => exact granted_demandsOfBlock owner body
  | .cond test yes none =>
    rw [Stmt.demands, Demand.granted_label, Demand.granted_append, test.granted_demands,
      yes.granted_demands, Stmt.exprs, List.forall_mem_append]
  | .cond test yes (some no) =>
    rw [Stmt.demands, Demand.granted_label, Demand.granted_append, Demand.granted_append,
      test.granted_demands, yes.granted_demands, no.granted_demands, Stmt.exprs,
      List.forall_mem_append, List.forall_mem_append]
  | .loop start test next body =>
    rw [Stmt.demands, Demand.granted_label, Demand.granted_append, Demand.granted_append,
      Demand.granted_append, granted_demandsOfClause, granted_demandsOfClause,
      granted_demandsOfClause, body.granted_demands, Stmt.exprs, List.forall_mem_append,
      List.forall_mem_append, List.forall_mem_append]
    exact and_right_comm

theorem granted_demandsOfBlock (owner : Nat) (body : List Stmt) :
    Granted (demandsOfBlock owner body) ↔ ∀ x ∈ exprsOfBlock body, x.Proper := by
  match body with
  | [] => simp [demandsOfBlock, exprsOfBlock]
  | stmt :: rest =>
    rw [demandsOfBlock, Demand.granted_append, stmt.granted_demands, granted_demandsOfBlock,
      exprsOfBlock, List.forall_mem_append]

end

/-- The conditions of a function hold exactly if its name is free and not taken, it has few
parameters, and all its expressions are proper. -/
theorem Function.granted_demands (earlier : List String) (f : Function) :
    Granted (f.demands earlier) ↔ (Symbol.isReserved f.name = false ∧ f.params.length ≤ 6) ∧
      f.name ∉ earlier ∧ ∀ x ∈ f.exprs, x.Proper := by
  rw [Function.demands, Demand.granted_condition, Demand.granted_condition,
    Demand.granted_condition, granted_demandsOfBlock, Bool.not_eq_true', Bool.not_eq_true',
    decide_eq_true_iff, Bool.eq_false_iff, Bool.eq_false_iff, ne_eq, ne_eq, List.contains_iff_mem,
    Function.exprs]
  tauto

namespace Program

theorem granted_demandsAfter (earlier : List String) (p : Program) :
    Granted (p.demandsAfter earlier) ↔
      (∀ f ∈ p, Symbol.isReserved f.name = false ∧ f.params.length ≤ 6) ∧
        ((p.map (·.name)).Nodup ∧ ∀ f ∈ p, f.name ∉ earlier) ∧ ∀ x ∈ p.exprs, x.Proper := by
  induction p generalizing earlier with
  | nil => simp [demandsAfter, exprs]
  | cons f rest ih =>
    rw [demandsAfter, Demand.granted_append, f.granted_demands, ih, List.map_cons,
      List.nodup_cons, List.forall_mem_cons, List.forall_mem_cons, exprs_cons,
      List.forall_mem_append]
    -- the name of `f` differs from the later ones exactly if these are not taken by it
    have fresh : (∀ g ∈ rest, g.name ∉ f.name :: earlier) ↔
        f.name ∉ rest.map (·.name) ∧ ∀ g ∈ rest, g.name ∉ earlier := by
      simp only [List.mem_cons, not_or, forall_and, List.mem_map, not_exists, not_and]
    rw [fresh]
    tauto

/-- The conditions of a program hold exactly if it is acceptable. -/
theorem granted_demands (p : Program) : Granted p.demands ↔ p.Acceptable := by
  rw [demands, granted_demandsAfter]
  constructor
  · rintro ⟨functions, ⟨distinct, -⟩, proper⟩
    exact
      { distinct := distinct
        names := fun f hf => (functions f hf).1
        params := fun f hf => (functions f hf).2
        calls := fun _ _ _ h => proper _ h
        targets := fun _ _ _ h => proper _ h }
  · intro h
    refine ⟨fun f hf => ⟨h.names f hf, h.params f hf⟩,
      ⟨h.distinct, fun _ _ => List.not_mem_nil⟩, fun x hx => ?_⟩
    cases x with
    | call name args loc => exact h.calls name args loc hx
    | assign target value loc => exact h.targets target value loc hx
    | num | var | binary => trivial

end Program

/-! ## 3. Labels that are demanded -/

mutual

/-- An expression whose conditions hold demands a label for every call in it. -/
theorem Expr.labels_demands {owner : Nat} {e : Expr} (h : Granted (e.demands owner)) :
    labels (e.demands owner) = e.parts.countP Expr.isCall := by
  cases e with
  | num value => rfl
  | var name offset loc => rfl
  | binary op lhs rhs =>
    rw [Expr.demands, Demand.granted_append] at h
    rw [Expr.demands, labels_append, lhs.labels_demands h.1, rhs.labels_demands h.2, Expr.parts,
      List.countP_cons_of_neg Bool.false_ne_true, List.countP_append]
  | assign target value loc =>
    rw [Expr.demands, Demand.granted_condition] at h
    rw [Expr.demands, labels_condition, value.labels_demands h.2, Expr.parts,
      List.countP_cons_of_neg Bool.false_ne_true, List.countP_append]
    -- a target that is a variable holds no call
    cases target with
    | var name offset loc => exact (Nat.zero_add _).symm
    | num | binary | assign | call => cases h.1
  | call name args loc =>
    rw [Expr.demands, Demand.granted_condition, Demand.granted_condition,
      Demand.granted_append] at h
    rw [Expr.demands, labels_condition, labels_condition, labels_append,
      labels_demandsOfArgs h.2.2.1, Expr.parts, List.countP_cons_of_pos rfl]
    rfl

theorem labels_demandsOfArgs {owner : Nat} {args : List Expr}
    (h : Granted (demandsOfArgs owner args)) :
    labels (demandsOfArgs owner args) = (partsOfArgs args).countP Expr.isCall := by
  cases args with
  | nil => rfl
  | cons arg args =>
    rw [demandsOfArgs, Demand.granted_append] at h
    rw [demandsOfArgs, labels_append, Expr.labels_demands h.1, labels_demandsOfArgs h.2,
      partsOfArgs, List.countP_append]

end

theorem labels_demandsOfClause {owner : Nat} {clause : Option Expr}
    (h : Granted (demandsOfClause owner clause)) :
    labels (demandsOfClause owner clause) = (partsOfClause clause).countP Expr.isCall := by
  cases clause with
  | none => rfl
  | some e => exact Expr.labels_demands h

mutual

/-- A statement whose conditions hold demands a label for every branch, loop and call in it. -/
theorem Stmt.labels_demands {owner : Nat} {stmt : Stmt} (h : Granted (stmt.demands owner)) :
    labels (stmt.demands owner) =
      stmt.exprs.countP Expr.isCall + stmt.parts.countP Stmt.isControl := by
  match stmt with
  | .ret value => exact Expr.labels_demands h
  | .expr e => exact Expr.labels_demands h
  | .block body =>
    rw [Stmt.parts, List.countP_cons_of_neg Bool.false_ne_true]
    exact labels_demandsOfBlock h
  | .cond test yes none =>
    rw [Stmt.demands, Demand.granted_label, Demand.granted_append] at h
    rw [Stmt.demands, labels_label, labels_append, Expr.labels_demands h.1,
      Stmt.labels_demands h.2, Stmt.exprs, Stmt.parts, List.countP_cons_of_pos rfl,
      List.countP_append]
    ring
  | .cond test yes (some no) =>
    rw [Stmt.demands, Demand.granted_label, Demand.granted_append, Demand.granted_append] at h
    rw [Stmt.demands, labels_label, labels_append, labels_append, Expr.labels_demands h.1.1,
      Stmt.labels_demands h.1.2, Stmt.labels_demands h.2, Stmt.exprs, Stmt.parts,
      List.countP_cons_of_pos rfl, List.countP_append, List.countP_append, List.countP_append]
    ring
  | .loop start test next body =>
    rw [Stmt.demands, Demand.granted_label, Demand.granted_append, Demand.granted_append,
      Demand.granted_append] at h
    rw [Stmt.demands, labels_label, labels_append, labels_append, labels_append,
      labels_demandsOfClause h.1.1.1, labels_demandsOfClause h.1.1.2, Stmt.labels_demands h.1.2,
      labels_demandsOfClause h.2, Stmt.exprs, Stmt.parts, List.countP_cons_of_pos rfl,
      List.countP_append, List.countP_append, List.countP_append]
    ring

theorem labels_demandsOfBlock {owner : Nat} {body : List Stmt}
    (h : Granted (demandsOfBlock owner body)) :
    labels (demandsOfBlock owner body) =
      (exprsOfBlock body).countP Expr.isCall + (partsOfBlock body).countP Stmt.isControl := by
  match body with
  | [] => rfl
  | stmt :: rest =>
    rw [demandsOfBlock, Demand.granted_append] at h
    rw [demandsOfBlock, labels_append, Stmt.labels_demands h.1, labels_demandsOfBlock h.2,
      exprsOfBlock, partsOfBlock, List.countP_append, List.countP_append]
    ring

end

namespace Program

/-- A program whose conditions hold demands a label for every branch, loop and call in it. -/
theorem labels_demandsAfter {earlier : List String} {p : Program}
    (h : Granted (p.demandsAfter earlier)) :
    Demand.labels (p.demandsAfter earlier) = p.labelled := by
  induction p generalizing earlier with
  | nil => rfl
  | cons f rest ih =>
    rw [demandsAfter, Demand.granted_append] at h
    have body : Granted (demandsOfBlock f.loc f.body) :=
      fun holds fault loc hd => h.1 holds fault loc (by simp [Function.demands, hd])
    rw [demandsAfter, labels_append, ih h.2, Function.demands, labels_condition, labels_condition,
      labels_condition, labels_demandsOfBlock body, labelled, labelled, exprs_cons,
      stmts_cons, List.countP_append, List.countP_append, Function.exprs, Function.stmts]
    ring

/-! ## 4. Acceptance -/

theorem labels_demands {p : Program} (h : p.Acceptable) :
    Demand.labels p.demands = p.labelled :=
  labels_demandsAfter (p.granted_demands.mpr h)

/-- The demands of a program are all met exactly if it is acceptable and there are labels
enough. -/
theorem allMet_demands (p : Program) (s : Label.Supply) :
    AllMet s.taken p.demands ↔ p.Acceptable ∧ s.taken + p.labelled ≤ 17576 := by
  rw [Demand.allMet_iff s.taken_le, p.granted_demands]
  refine and_congr_right fun acceptable => ?_
  rw [labels_demands acceptable]

/-- A listing is generated for exactly the admitted programs. -/
theorem generate_eq_ok_iff {p : Program} {s s' : Label.Supply} :
    (∃ lines, p.generate s = (.ok lines, s')) ↔
      (p.Acceptable ∧ s.taken + p.labelled ≤ 17576) ∧ s'.taken = s.taken + p.labelled := by
  have admitted : (∃ lines, p.generate s = (.ok lines, s')) ↔ p.admission s = .ok s' := by
    rw [generate_eq]
    cases p.admission s with
    | ok rest => simp
    | error refusal => simp
  rw [admitted, p.admission_eq, Demand.meet_eq_ok, p.allMet_demands]
  refine and_congr_right fun h => ?_
  rw [labels_demands h.1]

theorem generate_eq_error_iff {p : Program} {s s' : Label.Supply} {l : Located} :
    p.generate s = (.error l, s') ↔
      ∃ before d, FirstUnmet s.taken p.demands before d ∧ l = d.located ∧
        s'.taken = s.taken + Demand.labels before := by
  have refused : p.generate s = (.error l, s') ↔ p.admission s = .error ⟨l.fault, l.loc, s'⟩ := by
    rw [generate_eq]
    cases p.admission s with
    | ok rest => simp
    | error refusal =>
      cases l
      cases refusal
      simp [Refusal.located, and_assoc]
  rw [refused, p.admission_eq, Demand.meet_eq_error]
  rfl

/-- Generating a listing is exact. It goes through exactly if the program is acceptable and there
is a label for every branch, loop and call, and these are the labels that it takes. Otherwise the
first demand that is not met is reported, in the order of the code, and exactly the labels that
were demanded before it are taken. -/
theorem generate_exact (p : Program) (s : Label.Supply) :
    ((∃ lines s', p.generate s = (.ok lines, s')) ↔
        p.Acceptable ∧ s.taken + p.labelled ≤ 17576) ∧
      (∀ lines s', p.generate s = (.ok lines, s') → s'.taken = s.taken + p.labelled) ∧
      ∀ l s', p.generate s = (.error l, s') ↔
        ∃ before d, FirstUnmet s.taken p.demands before d ∧ l = d.located ∧
          s'.taken = s.taken + Demand.labels before := by
  refine ⟨⟨?_, ?_⟩, ?_, fun l s' => generate_eq_error_iff⟩
  · rintro ⟨lines, s', generated⟩
    exact (generate_eq_ok_iff.mp ⟨lines, generated⟩).1
  · intro h
    let s' : Label.Supply := ⟨s.taken + p.labelled, h.2⟩
    obtain ⟨lines, generated⟩ := generate_eq_ok_iff.mpr ⟨h, show s'.taken = _ from rfl⟩
    exact ⟨lines, s', generated⟩
  · intro lines s' generated
    exact (generate_eq_ok_iff.mp ⟨lines, generated⟩).2

end Program

end StackCompiler
