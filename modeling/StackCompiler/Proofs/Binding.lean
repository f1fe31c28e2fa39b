import Mathlib.Data.List.Basic
import StackCompiler.Compilation
import StackCompiler.Proofs.Numbering
import StackCompiler.Proofs.Resolution

/-!
# Programs that are well bound and allowed

Two things are true of a program that was read from a source and admitted. Every variable in it is
bound to the slot that the frame of its function has for its name, and every call and assignment
is one that code can be generated for.

The main statements are these.
* The slots of a frame lie apart, and within it (`Frame.offset_inj`, `Frame.offset_le_size`).
* A program from a source is well bound (`Program.bound_of_ofSource`).
* An admitted program is allowed, and its functions have different names
  (`Program.allowed_of_admission`, `Program.nodup_names_of_admission`).
-/

namespace StackCompiler

/-! ## 1. Frames -/

namespace Frame

theorem mem_names_insert {f : Frame} {name other : String} :
    other ∈ (f.insert name).names ↔ other ∈ f.names ∨ other = name := by
  by_cases h : name ∈ f.names
  · rw [names_insert_of_mem h]
    constructor
    · exact .inl
    · rintro (h' | rfl)
      · exact h'
      · exact h
  · rw [names_insert_of_not_mem h, List.mem_append, List.mem_singleton]

theorem mem_names_foldl {names : List String} {f : Frame} {name : String} :
    name ∈ (names.foldl insert f).names ↔ name ∈ f.names ∨ name ∈ names := by
  induction names generalizing f with
  | nil => simp
  | cons first names ih => rw [List.foldl_cons, ih, mem_names_insert, List.mem_cons, or_assoc]

theorem mem_names_ofNames {names : List String} {name : String} :
    name ∈ (ofNames names).names ↔ name ∈ names := by
  simp [ofNames, mem_names_foldl, empty]

/-- Different names have different slots. -/
theorem offset_inj {f : Frame} {x y : String} (hx : x ∈ f.names) (h : f.offset x = f.offset y) :
    x = y := by
  simp only [offset, wordSize] at h
  exact (List.idxOf_inj hx).mp (by omega)

theorem offset_le_size {f : Frame} {name : String} (h : name ∈ f.names) :
    f.offset name ≤ f.size := by
  have := List.idxOf_lt_length_of_mem h
  simp only [offset, size, length, wordSize]
  omega

theorem wordSize_le_offset (f : Frame) (name : String) : 8 ≤ f.offset name := by
  simp only [offset, wordSize]
  omega

theorem offset_mod (f : Frame) (name : String) : f.offset name % 8 = 0 := by
  simp only [offset, wordSize]
  omega

theorem size_mod (f : Frame) : f.size % 8 = 0 := by
  simp only [size, wordSize]
  omega

end Frame

/-! ## 2. Well bound programs -/

/-- A slot that the frame has under its name. -/
def Slot.Bound (frame : Frame) (s : Slot) : Prop :=
  s.name ∈ frame.names ∧ s.offset = frame.offset s.name

mutual

/-- Every variable of the expression is bound to its slot in the frame. -/
def Expr.Bound (frame : Frame) : Expr → Prop
  | .num _ => True
  | .var name offset _ => Slot.Bound frame ⟨name, offset⟩
  | .binary _ lhs rhs => lhs.Bound frame ∧ rhs.Bound frame
  | .assign target value _ => target.Bound frame ∧ value.Bound frame
  | .call _ args _ => BoundArgs frame args

/-- Every variable of the arguments is bound to its slot in the frame. -/
def BoundArgs (frame : Frame) : List Expr → Prop
  | [] => True
  | arg :: args => arg.Bound frame ∧ BoundArgs frame args

end

/-- Every variable of a clause that may be absent is bound to its slot in the frame. -/
def BoundClause (frame : Frame) (clause : Option Expr) : Prop :=
  ∀ e, clause = some e → e.Bound frame

mutual

/-- Every variable of the statement is bound to its slot in the frame. -/
def Stmt.Bound (frame : Frame) : Stmt → Prop
  | .ret value => value.Bound frame
  | .expr e => e.Bound frame
  | .block body => BoundBlock frame body
  | .cond test yes none => test.Bound frame ∧ yes.Bound frame
  | .cond test yes (some no) => test.Bound frame ∧ yes.Bound frame ∧ no.Bound frame
  | .loop start test next body =>
    BoundClause frame start ∧ BoundClause frame test ∧ BoundClause frame next ∧ body.Bound frame

/-- Every variable of the statements is bound to its slot in the frame. -/
def BoundBlock (frame : Frame) : List Stmt → Prop
  | [] => True
  | s :: rest => s.Bound frame ∧ BoundBlock frame rest

end

/-- Everything in the function is bound to its own frame, and all of that frame is reserved. -/
structure Function.Bound (f : Function) : Prop where
  params : ∀ param ∈ f.params, param.Bound f.frame
  body : BoundBlock f.frame f.body
  frameSize : f.frameSize = f.frame.size

namespace Surface

mutual

theorem Expr.bound_resolve {frame : Frame} (e : Expr) (h : ∀ x ∈ e.variables, x ∈ frame.names) :
    (e.resolve frame).Bound frame := by
  cases e with
  | num value => trivial
  | var name loc => exact ⟨h name (List.mem_singleton_self _), rfl⟩
  | neg operand => exact ⟨trivial, operand.bound_resolve h⟩
  | binary op lhs rhs =>
    have left := lhs.bound_resolve fun x hx => h x (List.mem_append_left _ hx)
    have right := rhs.bound_resolve fun x hx => h x (List.mem_append_right _ hx)
    rw [Expr.resolve, Op.apply]
    split
    · exact ⟨right, left⟩
    · exact ⟨left, right⟩
  | assign target value loc =>
    exact ⟨target.bound_resolve fun x hx => h x (List.mem_append_left _ hx),
      value.bound_resolve fun x hx => h x (List.mem_append_right _ hx)⟩
  | call name args loc => exact bound_resolveArgs args h

theorem bound_resolveArgs {frame : Frame} (args : List Expr)
    (h : ∀ x ∈ variablesOfArgs args, x ∈ frame.names) :
    BoundArgs frame (resolveArgs frame args) := by
  cases args with
  | nil => trivial
  | cons arg args =>
    exact ⟨arg.bound_resolve fun x hx => h x (List.mem_append_left _ hx),
      bound_resolveArgs args fun x hx => h x (List.mem_append_right _ hx)⟩

end

theorem bound_resolveClause {frame : Frame} {clause : Option Expr}
    (h : ∀ x ∈ variablesOfClause clause, x ∈ frame.names) :
    BoundClause frame (clause.map (Expr.resolve frame)) := by
  intro e he
  obtain ⟨e', rfl, rfl⟩ := Option.map_eq_some_iff.mp he
  exact e'.bound_resolve h

mutual

theorem Stmt.bound_resolve {frame : Frame} (s : Stmt) (h : ∀ x ∈ s.variables, x ∈ frame.names) :
    (s.resolve frame).Bound frame := by
  match s with
  | .ret value => exact value.bound_resolve h
  | .expr e => exact e.bound_resolve h
  | .block body => exact bound_resolveBlock body h
  | .cond test yes none =>
    simp only [Stmt.variables, List.mem_append] at h
    exact ⟨test.bound_resolve fun x hx => h x (.inl hx),
      yes.bound_resolve fun x hx => h x (.inr hx)⟩
  | .cond test yes (some no) =>
    simp only [Stmt.variables, List.mem_append] at h
    exact ⟨test.bound_resolve fun x hx => h x (.inl (.inl hx)),
      yes.bound_resolve fun x hx => h x (.inl (.inr hx)),
      no.bound_resolve fun x hx => h x (.inr hx)⟩
  | .loop start test next body =>
    simp only [Stmt.variables, List.mem_append] at h
    exact ⟨bound_resolveClause fun x hx => h x (.inl (.inl (.inl hx))),
      bound_resolveClause fun x hx => h x (.inl (.inl (.inr hx))),
      bound_resolveClause fun x hx => h x (.inl (.inr hx)),
      body.bound_resolve fun x hx => h x (.inr hx)⟩

theorem bound_resolveBlock {frame : Frame} (body : List Stmt)
    (h : ∀ x ∈ variablesOfBlock body, x ∈ frame.names) :
    BoundBlock frame (resolveBlock frame body) := by
  match body with
  | [] => trivial
  | s :: rest =>
    exact ⟨s.bound_resolve fun x hx => h x (List.mem_append_left _ hx),
      bound_resolveBlock rest fun x hx => h x (List.mem_append_right _ hx)⟩

end

/-- A function is bound to the frame that its own names make up. -/
theorem Function.bound_resolve (f : Function) : f.resolve.Bound where
  params param hp := by
    obtain ⟨name, hn, rfl⟩ := List.mem_map.mp hp
    exact ⟨Frame.mem_names_ofNames.mpr (List.mem_append_left _ hn), rfl⟩
  body := bound_resolveBlock f.body fun _ hx =>
    Frame.mem_names_ofNames.mpr (List.mem_append_right _ hx)
  frameSize := rfl

end Surface

/-- A program from a source is well bound. -/
theorem Program.bound_of_ofSource {source : String} {p : Program}
    (h : Program.ofSource source = .ok p) : ∀ f ∈ p, f.Bound := by
  intro f hf
  unfold Program.ofSource at h
  cases hs : Token.scan source with
  | error objection => rw [hs] at h; cases h
  | ok tokens =>
    rw [hs] at h
    change Program.ofTokens tokens _ = _ at h
    unfold Program.ofTokens at h
    dsimp only at h
    split at h
    · cases h
      obtain ⟨g, _, rfl⟩ := List.mem_map.mp hf
      rw [g.bind_eq_resolve]
      exact g.bound_resolve
    · cases h

/-! ## 3. Allowed programs -/

mutual

/-- Every call of the expression has a name and a number of arguments that code can be generated
for, and only variables are assigned to. -/
def Expr.Allowed : Expr → Prop
  | .num _ => True
  | .var .. => True
  | .binary _ lhs rhs => lhs.Allowed ∧ rhs.Allowed
  | .assign target value _ => target.isVariable = true ∧ value.Allowed
  | .call name args _ => args.length ≤ argLimit ∧ Symbol.isReserved name = false ∧ AllowedArgs args

/-- Every call and assignment in the arguments is allowed. -/
def AllowedArgs : List Expr → Prop
  | [] => True
  | arg :: args => arg.Allowed ∧ AllowedArgs args

end

/-- Every call and assignment in a clause that may be absent is allowed. -/
def AllowedClause (clause : Option Expr) : Prop :=
  ∀ e, clause = some e → e.Allowed

mutual

/-- Every call and assignment of the statement is allowed. -/
def Stmt.Allowed : Stmt → Prop
  | .ret value => value.Allowed
  | .expr e => e.Allowed
  | .block body => AllowedBlock body
  | .cond test yes none => test.Allowed ∧ yes.Allowed
  | .cond test yes (some no) => test.Allowed ∧ yes.Allowed ∧ no.Allowed
  | .loop start test next body =>
    AllowedClause start ∧ AllowedClause test ∧ AllowedClause next ∧ body.Allowed

/-- Every call and assignment of the statements is allowed. -/
def AllowedBlock : List Stmt → Prop
  | [] => True
  | s :: rest => s.Allowed ∧ AllowedBlock rest

end

/-- The function has a name and a number of parameters that code can be generated for, and every
call and assignment of its body is allowed. -/
structure Function.Allowed (f : Function) : Prop where
  name : Symbol.isReserved f.name = false
  params : f.params.length ≤ argLimit
  body : AllowedBlock f.body

open Admission

mutual

theorem Expr.allowed_of_admission {owner : Nat} {s s' : Label.Supply} (e : Expr)
    (h : e.admission owner s = .ok s') : e.Allowed := by
  cases e with
  | num value => trivial
  | var name offset loc => trivial
  | binary op lhs rhs =>
    obtain ⟨_, h₁, h₂⟩ := bind_eq_ok.mp h
    exact ⟨lhs.allowed_of_admission h₁, rhs.allowed_of_admission h₂⟩
  | assign target value loc =>
    obtain ⟨_, h₁, h₂⟩ := bind_eq_ok.mp h
    exact ⟨(require_eq_ok.mp h₁).1, value.allowed_of_admission h₂⟩
  | call name args loc =>
    obtain ⟨_, h₁, h⟩ := bind_eq_ok.mp h
    obtain ⟨_, h₂, h⟩ := bind_eq_ok.mp h
    obtain ⟨_, h₃, _⟩ := bind_eq_ok.mp h
    have few := (require_eq_ok.mp h₁).1
    have free := (require_eq_ok.mp h₂).1
    exact ⟨by simpa using few, by simpa using free, allowed_of_admissionOfArgs args h₃⟩

theorem allowed_of_admissionOfArgs {owner : Nat} {s s' : Label.Supply} (args : List Expr)
    (h : admissionOfArgs owner args s = .ok s') : AllowedArgs args := by
  cases args with
  | nil => trivial
  | cons arg args =>
    obtain ⟨_, h₁, h₂⟩ := bind_eq_ok.mp h
    exact ⟨arg.allowed_of_admission h₁, allowed_of_admissionOfArgs args h₂⟩

end

theorem allowed_of_admissionOfClause {owner : Nat} {s s' : Label.Supply} {clause : Option Expr}
    (h : admissionOfClause owner clause s = .ok s') : AllowedClause clause := by
  rintro e rfl
  exact e.allowed_of_admission h

mutual

theorem Stmt.allowed_of_admission {owner : Nat} {s s' : Label.Supply} (stmt : Stmt)
    (h : stmt.admission owner s = .ok s') : stmt.Allowed := by
  match stmt with
  | .ret value => exact value.allowed_of_admission h
  | .expr e => exact e.allowed_of_admission h
  | .block body => exact allowed_of_admissionOfBlock body h
  | .cond test yes none =>
    obtain ⟨_, _, h⟩ := bind_eq_ok.mp h
    obtain ⟨_, h₁, h₂⟩ := bind_eq_ok.mp h
    exact ⟨test.allowed_of_admission h₁, yes.allowed_of_admission h₂⟩
  | .cond test yes (some no) =>
    obtain ⟨_, _, h⟩ := bind_eq_ok.mp h
    obtain ⟨_, h₁, h⟩ := bind_eq_ok.mp h
    obtain ⟨_, h₂, h₃⟩ := bind_eq_ok.mp h
    exact ⟨test.allowed_of_admission h₁, yes.allowed_of_admission h₂, no.allowed_of_admission h₃⟩
  | .loop start test next body =>
    obtain ⟨_, _, h⟩ := bind_eq_ok.mp h
    obtain ⟨_, h₁, h⟩ := bind_eq_ok.mp h
    obtain ⟨_, h₂, h⟩ := bind_eq_ok.mp h
    obtain ⟨_, h₃, h₄⟩ := bind_eq_ok.mp h
    exact ⟨allowed_of_admissionOfClause h₁, allowed_of_admissionOfClause h₂,
      allowed_of_admissionOfClause h₄, body.allowed_of_admission h₃⟩

theorem allowed_of_admissionOfBlock {owner : Nat} {s s' : Label.Supply} (body : List Stmt)
    (h : admissionOfBlock owner body s = .ok s') : AllowedBlock body := by
  match body with
  | [] => trivial
  | stmt :: rest =>
    obtain ⟨_, h₁, h₂⟩ := bind_eq_ok.mp h
    exact ⟨stmt.allowed_of_admission h₁, allowed_of_admissionOfBlock rest h₂⟩

end

theorem Function.allowed_of_admission {defined : List String} {f : Function} {s s' : Label.Supply}
    (h : f.admission defined s = .ok s') : f.Allowed ∧ f.name ∉ defined := by
  obtain ⟨_, h₁, h⟩ := bind_eq_ok.mp h
  obtain ⟨_, h₂, h⟩ := bind_eq_ok.mp h
  obtain ⟨_, h₃, h₄⟩ := bind_eq_ok.mp h
  have free := (require_eq_ok.mp h₁).1
  have fresh := (require_eq_ok.mp h₂).1
  have few := (require_eq_ok.mp h₃).1
  exact ⟨⟨by simpa using free, by simpa using few, allowed_of_admissionOfBlock f.body h₄⟩,
    by simpa using fresh⟩

theorem Program.allowed_of_admissionAfter {defined : List String} {p : Program}
    {s s' : Label.Supply} (h : p.admissionAfter defined s = .ok s') :
    (∀ f ∈ p, f.Allowed ∧ f.name ∉ defined) ∧ (p.map (·.name)).Nodup := by
  induction p generalizing defined s with
  | nil => exact ⟨by simp, List.nodup_nil⟩
  | cons f rest ih =>
    obtain ⟨_, h₁, h₂⟩ := bind_eq_ok.mp h
    obtain ⟨allowed, distinct⟩ := ih h₂
    have first := Function.allowed_of_admission h₁
    refine ⟨?_, ?_⟩
    · intro g hg
      rcases List.mem_cons.mp hg with rfl | hg
      · exact first
      · exact ⟨(allowed g hg).1, fun hd => (allowed g hg).2 (List.mem_cons_of_mem _ hd)⟩
    · rw [List.map_cons, List.nodup_cons]
      refine ⟨?_, distinct⟩
      intro hm
      obtain ⟨g, hg, same⟩ := List.mem_map.mp hm
      exact (allowed g hg).2 (same ▸ List.mem_cons_self ..)

/-- An admitted program is allowed. -/
theorem Program.allowed_of_admission {p : Program} {s s' : Label.Supply}
    (h : p.admission s = .ok s') : ∀ f ∈ p, f.Allowed :=
  fun f hf => ((Program.allowed_of_admissionAfter h).1 f hf).1

/-- The functions of an admitted program have different names. -/
theorem Program.nodup_names_of_admission {p : Program} {s s' : Label.Supply}
    (h : p.admission s = .ok s') : (p.map (·.name)).Nodup :=
  (Program.allowed_of_admissionAfter h).2

/-- A listing is generated for an admitted program only. -/
theorem Program.generate_eq_ok {p : Program} {s s' : Label.Supply} {lines : Listing}
    (h : p.generate s = (.ok lines, s')) : p.admission s = .ok s' ∧ lines = p.listing s.taken := by
  rw [generate_eq] at h
  split at h
  · next rest admitted =>
    cases h
    exact ⟨admitted, rfl⟩
  · cases h

end StackCompiler
