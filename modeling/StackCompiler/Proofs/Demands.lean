import Mathlib.Data.List.Basic
import StackCompiler.Proofs.Numbering

/-!
# What a program demands

Everything that laying out the code of a program demands, in the order of the code: conditions on
names, parameters, arguments and targets, and a label for every branch, every loop and every call.
A demand is met or not by the number of labels that are taken when it comes up, so the first one
that is not met can be told from the list alone.

The main statements are these.
* Admission meets the demands one after another (`Program.admission_eq`).
* It goes through exactly if all demands are met (`meet_eq_ok`), and otherwise stops at the first
  one that is not (`meet_eq_error`).
-/

namespace StackCompiler

/-! ## 1. Demands -/

/-- Something that laying out code demands. -/
inductive Demand where
  /-- A label for the function at `owner`. -/
  | label (owner : Nat)
  /-- That `holds` is true. Otherwise there is a fault at `loc`. -/
  | condition (holds : Bool) (fault : Fault) (loc : Nat)

namespace Demand

/-- Whether a label is demanded. -/
def isLabel : Demand → Bool
  | label _ => true
  | condition .. => false

/-- The number of labels that are demanded. -/
def labels (ds : List Demand) : Nat :=
  ds.countP isLabel

/-- The fault to report if the demand is not met. Without a label the whole function fails. -/
def located : Demand → Located
  | label owner => ⟨.labelsExhausted, owner⟩
  | condition _ fault loc => ⟨fault, loc⟩

/-- The demand is met where `taken` labels are taken. -/
def MetAt (taken : Nat) : Demand → Prop
  | label _ => taken < 17576
  | condition holds _ _ => holds = true

/-- Every demand is met when it comes up, with `taken` labels taken before the first one. -/
def AllMet (taken : Nat) (ds : List Demand) : Prop :=
  ∀ before d after, ds = before ++ d :: after → d.MetAt (taken + labels before)

/-- `FirstUnmet taken ds before d`: the demand `d` is the first one that is not met, and `before`
are those in front of it. -/
def FirstUnmet (taken : Nat) (ds before : List Demand) (d : Demand) : Prop :=
  (∃ after, ds = before ++ d :: after) ∧ AllMet taken before ∧ ¬ d.MetAt (taken + labels before)

end Demand

mutual

/-- What an expression of the function at `owner` demands. -/
def Expr.demands (owner : Nat) : Expr → List Demand
  | .num _ => []
  | .var .. => []
  | .binary _ lhs rhs => lhs.demands owner ++ rhs.demands owner
  | .assign target value loc =>
    .condition target.isVariable .notAssignable loc :: value.demands owner
  | .call name args loc =>
    .condition (args.length ≤ 6) (.tooManyArguments 6) loc
      :: .condition (!Symbol.isReserved name) (.reservedName name) loc
      :: (demandsOfArgs owner args ++ [.label owner])

/-- What the arguments of a call demand. -/
def demandsOfArgs (owner : Nat) : List Expr → List Demand
  | [] => []
  | arg :: args => arg.demands owner ++ demandsOfArgs owner args

end

/-- What a clause demands that may be absent. -/
def demandsOfClause (owner : Nat) (clause : Option Expr) : List Demand :=
  clause.elim [] (Expr.demands owner)

mutual

/-- What a statement of the function at `owner` demands. The third clause of a loop comes after
its body. -/
def Stmt.demands (owner : Nat) : Stmt → List Demand
  | .ret value => value.demands owner
  | .expr e => e.demands owner
  | .block body => demandsOfBlock owner body
  | .cond test yes none => .label owner :: (test.demands owner ++ yes.demands owner)
  | .cond test yes (some no) =>
    .label owner :: (test.demands owner ++ yes.demands owner ++ no.demands owner)
  | .loop start test next body =>
    .label owner :: (demandsOfClause owner start ++ demandsOfClause owner test
      ++ body.demands owner ++ demandsOfClause owner next)

/-- What the statements of a block demand. -/
def demandsOfBlock (owner : Nat) : List Stmt → List Demand
  | [] => []
  | s :: rest => s.demands owner ++ demandsOfBlock owner rest

end

/-- What a function demands after those with the names `earlier`. -/
def Function.demands (earlier : List String) (f : Function) : List Demand :=
  .condition (!Symbol.isReserved f.name) (.reservedName f.name) f.loc
    :: .condition (!earlier.contains f.name) (.redefinition f.name) f.loc
    :: .condition (f.params.length ≤ 6) (.tooManyParameters 6) f.loc
    :: demandsOfBlock f.loc f.body

namespace Program

/-- What functions demand after those with the names `earlier`. -/
def demandsAfter (earlier : List String) : Program → List Demand
  | [] => []
  | f :: rest => f.demands earlier ++ demandsAfter (f.name :: earlier) rest

/-- What a program demands. -/
def demands (p : Program) : List Demand :=
  p.demandsAfter []

end Program

/-! ## 2. Meeting demands -/

namespace Demand

/-- Meets demands one after another, as long as they can be met. -/
def meet : List Demand → Label.Supply → Admission
  | [], s => .ok s
  | label owner :: ds, s => Admission.takeLabel owner s >>= meet ds
  | condition holds fault loc :: ds, s => Admission.require holds fault loc s >>= meet ds

@[simp] theorem meet_nil (s : Label.Supply) : meet [] s = .ok s := rfl

@[simp] theorem meet_label (owner : Nat) (ds : List Demand) (s : Label.Supply) :
    meet (label owner :: ds) s = Admission.takeLabel owner s >>= meet ds := rfl

@[simp] theorem meet_condition (holds : Bool) (fault : Fault) (loc : Nat) (ds : List Demand)
    (s : Label.Supply) :
    meet (condition holds fault loc :: ds) s = Admission.require holds fault loc s >>= meet ds :=
  rfl

/-- The second part of a list is met with the labels that the first part leaves. -/
theorem meet_append (xs ys : List Demand) (s : Label.Supply) :
    meet (xs ++ ys) s = meet xs s >>= meet ys := by
  induction xs generalizing s with
  | nil => rfl
  | cons d xs ih =>
    cases d with
    | label owner =>
      rw [List.cons_append, meet_label, meet_label, bind_assoc]
      exact congrArg _ (funext ih)
    | condition holds fault loc =>
      rw [List.cons_append, meet_condition, meet_condition, bind_assoc]
      exact congrArg _ (funext ih)

end Demand

open Demand (meet meet_append AllMet FirstUnmet)

mutual

/-- Admitting an expression meets what it demands. -/
theorem Expr.admission_eq (owner : Nat) (e : Expr) :
    e.admission owner = meet (e.demands owner) := by
  funext s
  cases e with
  | num value => rfl
  | var name offset loc => rfl
  | binary op lhs rhs =>
    rw [Expr.demands, meet_append, ← lhs.admission_eq, ← rhs.admission_eq]
    rfl
  | assign target value loc =>
    rw [Expr.demands, Demand.meet_condition, ← value.admission_eq]
    rfl
  | call name args loc =>
    rw [Expr.demands, Demand.meet_condition]
    refine congrArg _ (funext fun s => ?_)
    rw [Demand.meet_condition]
    refine congrArg _ (funext fun s => ?_)
    rw [meet_append, ← admissionOfArgs_eq]
    refine congrArg _ (funext fun s => ?_)
    rw [Demand.meet_label]
    exact (bind_pure (Admission.takeLabel owner s)).symm

/-- Admitting arguments meets what they demand. -/
theorem admissionOfArgs_eq (owner : Nat) (args : List Expr) :
    admissionOfArgs owner args = meet (demandsOfArgs owner args) := by
  funext s
  cases args with
  | nil => rfl
  | cons arg args =>
    rw [demandsOfArgs, meet_append, ← arg.admission_eq, ← admissionOfArgs_eq]
    rfl

end

theorem admissionOfClause_eq (owner : Nat) (clause : Option Expr) :
    admissionOfClause owner clause = meet (demandsOfClause owner clause) := by
  cases clause with
  | none => rfl
  | some e => exact e.admission_eq owner

mutual

/-- Admitting a statement meets what it demands. -/
theorem Stmt.admission_eq (owner : Nat) (stmt : Stmt) :
    stmt.admission owner = meet (stmt.demands owner) := by
  funext s
  match stmt with
  | .ret value => exact congrFun (value.admission_eq owner) s
  | .expr e => exact congrFun (e.admission_eq owner) s
  | .block body => exact congrFun (admissionOfBlock_eq owner body) s
  | .cond test yes none =>
    rw [Stmt.demands, Demand.meet_label]
    refine congrArg _ (funext fun s => ?_)
    rw [meet_append, ← test.admission_eq, ← yes.admission_eq]
  | .cond test yes (some no) =>
    rw [Stmt.demands, Demand.meet_label]
    refine congrArg _ (funext fun s => ?_)
    rw [meet_append, meet_append, bind_assoc, ← test.admission_eq, ← yes.admission_eq,
      ← no.admission_eq]
  | .loop start test next body =>
    rw [Stmt.demands, Demand.meet_label]
    refine congrArg _ (funext fun s => ?_)
    rw [meet_append, meet_append, meet_append, bind_assoc, bind_assoc, ← admissionOfClause_eq,
      ← admissionOfClause_eq, ← body.admission_eq, ← admissionOfClause_eq]

/-- Admitting a block meets what it demands. -/
theorem admissionOfBlock_eq (owner : Nat) (body : List Stmt) :
    admissionOfBlock owner body = meet (demandsOfBlock owner body) := by
  funext s
  match body with
  | [] => rfl
  | stmt :: rest =>
    rw [demandsOfBlock, meet_append, ← stmt.admission_eq, ← admissionOfBlock_eq]
    rfl

end

theorem Function.admission_eq (earlier : List String) (f : Function) :
    f.admission earlier = meet (f.demands earlier) := by
  funext s
  rw [Function.demands, Demand.meet_condition]
  refine congrArg _ (funext fun s => ?_)
  rw [Demand.meet_condition]
  refine congrArg _ (funext fun s => ?_)
  rw [Demand.meet_condition, ← admissionOfBlock_eq]
  rfl

theorem Program.admissionAfter_eq (earlier : List String) (p : Program) :
    p.admissionAfter earlier = meet (p.demandsAfter earlier) := by
  induction p generalizing earlier with
  | nil => rfl
  | cons f rest ih =>
    funext s
    rw [Program.demandsAfter, meet_append, ← f.admission_eq, ← ih]
    rfl

/-- Admission meets what the program demands. -/
theorem Program.admission_eq (p : Program) : p.admission = meet p.demands :=
  p.admissionAfter_eq []

/-! ## 3. The first demand that is not met -/

namespace Demand

theorem labels_append (xs ys : List Demand) : labels (xs ++ ys) = labels xs + labels ys :=
  List.countP_append

theorem labels_label (owner : Nat) (ds : List Demand) :
    labels (label owner :: ds) = labels ds + 1 :=
  List.countP_cons_of_pos rfl

theorem labels_condition (holds : Bool) (fault : Fault) (loc : Nat) (ds : List Demand) :
    labels (condition holds fault loc :: ds) = labels ds :=
  List.countP_cons_of_neg Bool.false_ne_true

theorem labels_cons (d : Demand) (ds : List Demand) : labels (d :: ds) = labels [d] + labels ds :=
  labels_append [d] ds

theorem allMet_nil (taken : Nat) : AllMet taken [] := by
  intro before d after h
  exact absurd h.symm (by simp)

/-- Meeting a list is meeting its first demand and then the others. -/
theorem allMet_cons {taken : Nat} {d : Demand} {ds : List Demand} :
    AllMet taken (d :: ds) ↔ d.MetAt taken ∧ AllMet (taken + labels [d]) ds := by
  constructor
  · intro h
    refine ⟨h [] d ds rfl, ?_⟩
    intro before e after hds
    have met := h (d :: before) e after (congrArg (d :: ·) hds)
    rwa [labels_cons, ← Nat.add_assoc] at met
  · rintro ⟨first, others⟩ before e after hds
    rcases List.cons_eq_append_iff.mp hds with ⟨rfl, hcons⟩ | ⟨before', rfl, hds'⟩
    · cases hcons
      exact first
    · rw [labels_cons, ← Nat.add_assoc]
      exact others before' e after hds'

/-- One demand that is met leaves the labels that it does not ask for. -/
theorem MetAt.room {taken : Nat} {d : Demand} (h : d.MetAt taken) (le : taken ≤ Label.capacity) :
    taken + labels [d] ≤ Label.capacity := by
  cases d with
  | label owner => exact h
  | condition holds fault loc => exact le

/-- The labels that are asked for by demands that are met are there. -/
theorem AllMet.room {taken : Nat} {ds : List Demand} (h : AllMet taken ds)
    (le : taken ≤ Label.capacity) : taken + labels ds ≤ Label.capacity := by
  induction ds generalizing taken with
  | nil => exact le
  | cons d ds ih =>
    obtain ⟨met, mets⟩ := allMet_cons.mp h
    rw [labels_cons, ← Nat.add_assoc]
    exact ih mets (met.room le)

/-- A single demand that is met takes a label exactly if it asks for one. -/
theorem meet_singleton_eq_ok {d : Demand} {s s' : Label.Supply} :
    meet [d] s = .ok s' ↔ d.MetAt s.taken ∧ s'.taken = s.taken + labels [d] := by
  cases d with
  | label owner =>
    show Admission.takeLabel owner s >>= pure = _ ↔ _
    rw [bind_pure, Admission.takeLabel_eq_ok]
    refine ⟨fun h => ⟨?_, h⟩, fun h => h.2⟩
    have le := s'.taken_le
    rw [h] at le
    exact le
  | condition holds fault loc =>
    show Admission.require holds fault loc s >>= pure = _ ↔ _
    rw [bind_pure, Admission.require_eq_ok]
    cases s
    cases s'
    simp [MetAt, labels, isLabel]

/-- All demands are met exactly if meeting them goes through, and then they take the labels that
they ask for. -/
theorem meet_eq_ok {ds : List Demand} {s s' : Label.Supply} :
    meet ds s = .ok s' ↔ AllMet s.taken ds ∧ s'.taken = s.taken + labels ds := by
  induction ds generalizing s with
  | nil =>
    cases s
    cases s'
    simp [allMet_nil, labels, eq_comm]
  | cons d ds ih =>
    rw [← List.singleton_append, meet_append, Admission.bind_eq_ok, List.singleton_append,
      allMet_cons, labels_cons d ds, ← Nat.add_assoc]
    constructor
    · rintro ⟨middle, first, others⟩
      obtain ⟨met, taken⟩ := meet_singleton_eq_ok.mp first
      obtain ⟨mets, taken'⟩ := ih.mp others
      rw [taken] at mets taken'
      exact ⟨⟨met, mets⟩, taken'⟩
    · rintro ⟨⟨met, mets⟩, taken⟩
      let middle : Label.Supply := ⟨s.taken + labels [d], met.room s.taken_le⟩
      exact ⟨middle, meet_singleton_eq_ok.mpr ⟨met, rfl⟩, ih.mpr ⟨mets, taken⟩⟩

/-- A demand that is not met is reported, and takes no label. -/
theorem meet_of_not_metAt {d : Demand} {s : Label.Supply} (ds : List Demand)
    (h : ¬ d.MetAt s.taken) : meet (d :: ds) s = .error ⟨d.located.fault, d.located.loc, s⟩ := by
  cases d with
  | label owner =>
    have none_left : s.take? = none :=
      Label.Supply.take?_eq_none.mpr (Nat.le_antisymm s.taken_le (Nat.le_of_not_lt h))
    rw [meet_label, Admission.takeLabel, nextLabel, none_left]
    rfl
  | condition holds fault loc =>
    have fails : holds = false := Bool.eq_false_iff.mpr h
    rw [meet_condition, fails]
    rfl

/-- Demands that are not all met have a first one that is not. -/
theorem exists_firstUnmet {taken : Nat} {ds : List Demand} (h : ¬ AllMet taken ds) :
    ∃ before d, FirstUnmet taken ds before d := by
  induction ds generalizing taken with
  | nil => exact absurd (allMet_nil taken) h
  | cons d ds ih =>
    by_cases met : d.MetAt taken
    · have others : ¬ AllMet (taken + labels [d]) ds := fun h' => h (allMet_cons.mpr ⟨met, h'⟩)
      obtain ⟨before, e, ⟨after, rfl⟩, mets, unmet⟩ := ih others
      refine ⟨d :: before, e, ⟨after, rfl⟩, allMet_cons.mpr ⟨met, mets⟩, ?_⟩
      rwa [labels_cons, ← Nat.add_assoc]
    · exact ⟨[], d, ⟨ds, rfl⟩, allMet_nil taken, met⟩

/-- The first unmet demand is reported, with the labels taken that those before it ask for. -/
theorem FirstUnmet.meet_eq {s s' : Label.Supply} {ds before : List Demand} {d : Demand}
    (h : FirstUnmet s.taken ds before d) (taken : s'.taken = s.taken + labels before) :
    meet ds s = .error ⟨d.located.fault, d.located.loc, s'⟩ := by
  obtain ⟨⟨after, rfl⟩, mets, unmet⟩ := h
  rw [← taken] at unmet
  rw [meet_append, meet_eq_ok.mpr ⟨mets, taken⟩]
  exact meet_of_not_metAt after unmet

/-- Meeting demands stops exactly at the first one that is not met. -/
theorem meet_eq_error {ds : List Demand} {s : Label.Supply} {r : Refusal} :
    meet ds s = .error r ↔ ∃ before d, FirstUnmet s.taken ds before d ∧ r.located = d.located ∧
      r.supply.taken = s.taken + labels before := by
  constructor
  · intro h
    have unmet : ¬ AllMet s.taken ds := by
      intro mets
      let s' : Label.Supply := ⟨s.taken + labels ds, mets.room s.taken_le⟩
      rw [meet_eq_ok.mpr ⟨mets, show s'.taken = _ from rfl⟩] at h
      cases h
    obtain ⟨before, d, first⟩ := exists_firstUnmet unmet
    let s' : Label.Supply := ⟨s.taken + labels before, first.2.1.room s.taken_le⟩
    rw [first.meet_eq (show s'.taken = _ from rfl)] at h
    cases h
    exact ⟨before, d, first, rfl, rfl⟩
  · rintro ⟨before, d, first, located, taken⟩
    rw [first.meet_eq taken, ← located]
    rfl

end Demand

end StackCompiler
