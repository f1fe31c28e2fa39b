import Mathlib.Data.List.Basic
import StackCompiler.Proofs.Marks

/-!
# Sections of a listing

A listing consists of the sections of its functions. A section starts where a function is exported
and goes on up to the next such line.

The main statements are these.
* The code of a statement jumps to its own labels only, apart from the place where its function
  returns (`Stmt.closed`).
* The sections of the listing of a program are those of its functions (`Program.split_listing`).
* Every jump of a function stays in its section, and there is one place in it where the function
  returns (`Function.closed_sectionAt`, `Function.exits_sectionAt`).
-/

namespace StackCompiler

/-! ## 1. Sections -/

/-- Whether a line exports a function. -/
def Line.isExport : Line → Bool
  | .exported _ => true
  | _ => false

/-- A function with the lines behind the one that exports it. -/
structure FunctionSection where
  function : String
  body : Listing

/-- All lines of a section. -/
def FunctionSection.lines (s : FunctionSection) : Listing :=
  .exported s.function :: s.body

namespace Listing

/-- The sections of a listing, in order. -/
def split : Listing → List FunctionSection
  | [] => []
  | .exported function :: rest =>
    ⟨function, rest.takeWhile fun line => !line.isExport⟩ :: split rest
  | .dialect :: rest => split rest
  | .entry _ :: rest => split rest
  | .label _ :: rest => split rest
  | .instr _ :: rest => split rest

/-- A section ends here: nothing follows, or another section. -/
def AtSection (lines : Listing) : Prop :=
  lines = [] ∨ ∃ function rest, lines = .exported function :: rest

theorem split_append {xs : Listing} (inside : ∀ line ∈ xs, line.isExport = false) (ys : Listing) :
    split (xs ++ ys) = split ys := by
  induction xs with
  | nil => rfl
  | cons line xs ih =>
    obtain ⟨first, others⟩ := List.forall_mem_cons.mp inside
    cases line with
    | exported function => cases first
    | dialect | entry | label | instr => exact ih others

theorem takeWhile_section {xs ys : Listing} (inside : ∀ line ∈ xs, line.isExport = false)
    (ends : AtSection ys) : (xs ++ ys).takeWhile (fun line => !line.isExport) = xs := by
  rw [List.takeWhile_append_of_pos fun line h => by rw [inside line h]; rfl]
  rcases ends with rfl | ⟨function, rest, rfl⟩
  · exact List.append_nil xs
  · exact List.append_nil xs

/-- A section and those behind it. -/
theorem split_section {s : FunctionSection} {rest : Listing}
    (inside : ∀ line ∈ s.body, line.isExport = false) (ends : AtSection rest) :
    split (s.lines ++ rest) = s :: split rest := by
  show ⟨s.function, (s.body ++ rest).takeWhile fun line => !line.isExport⟩ ::
    split (s.body ++ rest) = _
  rw [takeWhile_section inside ends, split_append inside]

end Listing

/-! ## 2. Jumps -/

/-- Where an instruction jumps to, if it is a jump. -/
def Instr.target? : Instr → Option Target
  | .jump target | .jumpEqual target | .jumpNonzero target => some target
  | _ => none

/-- The target that is written in a line: that of its label, or that of its jump. -/
def Line.target? : Line → Option Target
  | .label target => some target
  | .instr i => i.target?
  | .dialect | .exported _ | .entry _ => none

/-- Code of one section in which every jump leads to a label of the code or to one of `outer`. -/
structure Listing.Closed (outer : List Target) (lines : Listing) : Prop where
  jumps : ∀ i target, .instr i ∈ lines → i.target? = some target →
    target ∈ outer ∨ .label target ∈ lines
  inside : ∀ line ∈ lines, line.isExport = false

namespace Listing.Closed

variable {outer : List Target} {xs ys : Listing} {target : Target}

theorem instrs {is : List Instr}
    (h : ∀ i ∈ is, ∀ target, i.target? = some target → target ∈ outer) :
    Closed outer (instrs is) where
  jumps i target hi jumps := by
    obtain ⟨i', hi', heq⟩ := List.mem_map.mp hi
    cases heq
    exact .inl (h i hi' target jumps)
  inside line hl := by
    obtain ⟨i, -, rfl⟩ := List.mem_map.mp hl
    rfl

theorem quiet {is : List Instr} (h : ∀ i ∈ is, i.target? = none) :
    Closed outer (StackCompiler.instrs is) :=
  instrs fun i hi target jumps => by rw [h i hi] at jumps; cases jumps

theorem nil : Closed outer [] where
  jumps _ _ hi _ := by cases hi
  inside := List.forall_mem_nil _

theorem append (hx : Closed outer xs) (hy : Closed outer ys) : Closed outer (xs ++ ys) where
  jumps i target hi jumps := by
    rcases List.mem_append.mp hi with hi | hi
    · exact (hx.jumps i target hi jumps).imp_right (List.mem_append_left _)
    · exact (hy.jumps i target hi jumps).imp_right (List.mem_append_right _)
  inside := List.forall_mem_append.mpr ⟨hx.inside, hy.inside⟩

theorem label (target : Target) (h : Closed outer xs) : Closed outer (.label target :: xs) where
  jumps i target' hi jumps := by
    rcases List.mem_cons.mp hi with heq | hi
    · cases heq
    · exact (h.jumps i target' hi jumps).imp_right (List.mem_cons_of_mem _)
  inside := List.forall_mem_cons.mpr ⟨rfl, h.inside⟩

theorem entry (function : String) (h : Closed outer xs) : Closed outer (.entry function :: xs) where
  jumps i target hi jumps := by
    rcases List.mem_cons.mp hi with heq | hi
    · cases heq
    · exact (h.jumps i target hi jumps).imp_right (List.mem_cons_of_mem _)
  inside := List.forall_mem_cons.mpr ⟨rfl, h.inside⟩

/-- Jumps to a label of the code stay inside it. -/
theorem close (target : Target) (h : Closed (target :: outer) xs) (mem : .label target ∈ xs) :
    Closed outer xs where
  jumps i target' hi jumps := by
    rcases h.jumps i target' hi jumps with ho | hm
    · rcases List.mem_cons.mp ho with rfl | ho
      · exact .inr mem
      · exact .inl ho
    · exact .inr hm
  inside := h.inside

end Listing.Closed

open Listing (Closed)

theorem Op.target?_code (op : Op) : ∀ i ∈ op.code, i.target? = none := by
  cases op <;> decide

theorem Expr.target?_addressCode (e : Expr) : ∀ i ∈ e.addressCode, i.target? = none := by
  cases e with
  | var name offset loc => simp [addressCode, Instr.target?]
  | num | binary | assign | call => exact List.forall_mem_nil _

/-- Both ways through a call stay inside its code. -/
theorem callCode_closed (outer : List Target) (name : String) (args number : Nat) :
    Closed outer (callCode name args number) := by
  have pops : ∀ i ∈ (argRegs.take args).reverse.map Instr.pop, i.target? = none := by
    intro i hi
    obtain ⟨r, -, rfl⟩ := List.mem_map.mp hi
    rfl
  have core : Closed (.numbered .padded number :: .numbered .done number :: outer)
      (callCode name args number) := by
    unfold callCode
    refine .append (.append (.append (.quiet pops) (.instrs ?_)) (.label _ (.quiet ?_)))
      (.label _ (.quiet ?_))
    · simp [Instr.target?]
    · simp [Instr.target?]
    · simp [Instr.target?]
  exact (core.close _ (by simp [callCode])).close _ (by simp [callCode])

mutual

/-- The code of an expression jumps to its own labels only. -/
theorem Expr.closed (outer : List Target) (e : Expr) (number : Nat) :
    Closed outer (e.code number) := by
  cases e with
  | num value => exact .quiet (by simp [Instr.target?])
  | var name offset loc => exact .quiet (by simp [Instr.target?])
  | binary op lhs rhs =>
    rw [Expr.code]
    refine .append (.append (lhs.closed ..) (rhs.closed ..)) (.quiet ?_)
    simpa [Instr.target?, or_imp, forall_and] using op.target?_code
  | assign target value loc =>
    rw [Expr.code]
    refine .append (.append (.quiet target.target?_addressCode) (value.closed ..)) (.quiet ?_)
    simp [Instr.target?]
  | call name args loc =>
    rw [Expr.code]
    exact .append (codeOfArgs_closed ..) (callCode_closed ..)

theorem codeOfArgs_closed (outer : List Target) (args : List Expr) (number : Nat) :
    Closed outer (codeOfArgs number args) := by
  cases args with
  | nil => exact .nil
  | cons arg args => exact .append (arg.closed ..) (codeOfArgs_closed ..)

end

theorem Expr.effectCode_closed (outer : List Target) (e : Expr) (number : Nat) :
    Closed outer (e.effectCode number) :=
  .append (e.closed ..) (.quiet (by simp [Instr.target?]))

theorem Expr.branchCode_closed {outer : List Target} {target : Target} (e : Expr) (number : Nat)
    (mem : target ∈ outer) : Closed outer (e.branchCode number target) :=
  .append (e.closed ..) (.instrs (by simpa [Instr.target?] using mem))

theorem clause_closed {outer : List Target} {code : Expr → Listing} (clause : Option Expr)
    (h : ∀ e, Closed outer (code e)) : Closed outer (clause.elim [] code) := by
  cases clause with
  | none => exact .nil
  | some e => exact h e

mutual

/-- The code of a statement jumps to its own labels and to the place where its function returns. -/
theorem Stmt.closed {outer : List Target} {function : String} (s : Stmt) (number : Nat)
    (exit : .exit function ∈ outer) : Closed outer (s.code function number) := by
  match s with
  | .ret value =>
    rw [Stmt.code]
    exact .append (value.closed ..) (.instrs (by simpa [Instr.target?] using exit))
  | .expr e => exact e.effectCode_closed ..
  | .block body => exact codeOfBlock_closed body number exit
  | .cond test yes none =>
    rw [Stmt.code]
    refine Closed.close (.numbered .done number) ?_ (by simp)
    exact .append (.append (test.branchCode_closed _ List.mem_cons_self)
      (yes.closed _ (List.mem_cons_of_mem _ exit))) (.label _ .nil)
  | .cond test yes (some no) =>
    rw [Stmt.code]
    refine Closed.close (.numbered .done number) ?_ (by simp)
    refine Closed.close (.numbered .otherwise number) ?_ (by simp)
    have exit' := List.mem_cons_of_mem (.numbered .otherwise number)
      (List.mem_cons_of_mem (.numbered .done number) exit)
    exact .append (.append (.append (.append (test.branchCode_closed _ List.mem_cons_self)
      (yes.closed _ exit')) (.instrs (by simp [Instr.target?]))) (.label _ (no.closed _ exit')))
      (.label _ .nil)
  | .loop start test next body =>
    rw [Stmt.code]
    refine Closed.close (.numbered .done number) ?_ (by simp)
    refine Closed.close (.numbered .again number) ?_ (by simp)
    have exit' := List.mem_cons_of_mem (.numbered .again number)
      (List.mem_cons_of_mem (.numbered .done number) exit)
    refine .append (.append (.append (.append (.append (clause_closed start fun e =>
      e.effectCode_closed ..) (.label _ (clause_closed test fun e => e.branchCode_closed _ ?_)))
      (body.closed _ exit')) (clause_closed next fun e => e.effectCode_closed ..))
      (.instrs (by simp [Instr.target?]))) (.label _ .nil)
    exact List.mem_cons_of_mem _ List.mem_cons_self

theorem codeOfBlock_closed {outer : List Target} {function : String} (body : List Stmt)
    (number : Nat) (exit : .exit function ∈ outer) :
    Closed outer (codeOfBlock function number body) := by
  match body with
  | [] => exact .nil
  | s :: rest => exact .append (s.closed number exit) (codeOfBlock_closed rest _ exit)

end

/-! ## 3. Sections of a program -/

/-- Whether a line is the place where a function returns. -/
def Line.isExit : Line → Bool
  | .label (.exit _) => true
  | _ => false

namespace Function

/-- The section of a function whose first label is `number`. -/
def sectionAt (number : Nat) (f : Function) : FunctionSection where
  function := f.name
  body := .entry f.name :: (instrs f.enterCode ++ codeOfBlock f.name number f.body
    ++ .label (.exit f.name) :: instrs [.mov .rsp .rbp, .pop .rbp, .ret])

theorem code_eq_lines (f : Function) (number : Nat) :
    f.code number = (f.sectionAt number).lines :=
  rfl

/-- What a function does when it is entered: it sets up its frame and stores registers in slots. -/
theorem mem_enterCode {f : Function} {i : Instr} (h : i ∈ f.enterCode) :
    i = .push .rbp ∨ i = .mov .rbp .rsp ∨ i = .subImm .rsp f.frameSize ∨
      ∃ offset reg, i = .storeSlot offset reg := by
  unfold enterCode at h
  rcases List.mem_append.mp h with h | stores
  · rcases List.mem_append.mp h with setUp | reserves
    · rcases List.mem_pair.mp setUp with rfl | rfl
      · exact .inl rfl
      · exact .inr (.inl rfl)
    · unfold reserveCode at reserves
      split at reserves
      · cases reserves
      · exact .inr (.inr (.inl (List.mem_singleton.mp reserves)))
  · rw [← List.map_uncurry_zip_eq_zipWith] at stores
    obtain ⟨⟨param, reg⟩, -, rfl⟩ := List.mem_map.mp stores
    exact .inr (.inr (.inr ⟨param.offset, reg, rfl⟩))

theorem target?_enterCode (f : Function) : ∀ i ∈ f.enterCode, i.target? = none := by
  intro i hi
  rcases mem_enterCode hi with rfl | rfl | rfl | ⟨offset, reg, rfl⟩ <;> rfl

/-- Every jump of a function leads to a label of its section. -/
theorem closed_sectionAt (f : Function) (number : Nat) : Closed [] (f.sectionAt number).body := by
  refine Closed.close (.exit f.name) (.entry _ ?_) (by simp [sectionAt])
  have enter : Closed [.exit f.name] (instrs f.enterCode) := .quiet f.target?_enterCode
  have leave : Closed [.exit f.name] (instrs [.mov .rsp .rbp, .pop .rbp, .ret]) :=
    .quiet (by simp [Instr.target?])
  exact .append (.append enter (codeOfBlock_closed f.body number List.mem_cons_self))
    (leave.label _)

theorem isExit_codeOfBlock {function : String} {number : Nat} {body : List Stmt} {line : Line}
    (h : line ∈ codeOfBlock function number body) : line.isExit = false := by
  cases exits : line.isExit with
  | false => rfl
  | true =>
    -- the labels of a body are numbered
    have marked : line.isMark := by
      cases line with
      | label target => rfl
      | dialect | exported | entry | instr => cases exits
    obtain ⟨role, n, rfl, -, -⟩ :=
      (numbered_codeOfBlock body function number).within line (Listing.mem_marks marked h)
    cases exits

theorem isExit_instrs {is : List Instr} {line : Line} (h : line ∈ instrs is) :
    line.isExit = false := by
  obtain ⟨i, -, rfl⟩ := List.mem_map.mp h
  rfl

/-- A function returns in one place of its section. -/
theorem exits_sectionAt (f : Function) (number : Nat) :
    (f.sectionAt number).lines.filter Line.isExit = [.label (.exit f.name)] := by
  have none_of {lines : Listing} (h : ∀ line ∈ lines, line.isExit = false) :
      lines.filter Line.isExit = [] :=
    List.filter_eq_nil_iff.mpr fun line hl => by rw [h line hl]; exact Bool.false_ne_true
  have before : ∀ line ∈ Line.exported f.name :: .entry f.name ::
      (instrs f.enterCode ++ codeOfBlock f.name number f.body), line.isExit = false :=
    List.forall_mem_cons.mpr ⟨rfl, List.forall_mem_cons.mpr ⟨rfl, List.forall_mem_append.mpr
      ⟨fun line => isExit_instrs, fun line => isExit_codeOfBlock⟩⟩⟩
  show List.filter Line.isExit ((Line.exported f.name :: .entry f.name ::
      (instrs f.enterCode ++ codeOfBlock f.name number f.body)) ++
    .label (.exit f.name) :: instrs _) = _
  rw [List.filter_append, none_of before, List.filter_cons_of_pos rfl,
    none_of fun line => isExit_instrs, List.nil_append]

end Function

namespace Program

/-- The sections of a program whose first label is `number`. -/
def sectionsAt (number : Nat) : Program → List FunctionSection
  | [] => []
  | f :: rest => f.sectionAt number :: sectionsAt (number + f.labels) rest

theorem atSection_sections (p : Program) (number : Nat) :
    Listing.AtSection (p.sections number) := by
  cases p with
  | nil => exact .inl rfl
  | cons f rest => exact .inr ⟨_, _, rfl⟩

theorem lines_sectionsAt (p : Program) (number : Nat) :
    (p.sectionsAt number).flatMap FunctionSection.lines = p.sections number := by
  induction p generalizing number with
  | nil => rfl
  | cons f rest ih =>
    rw [sectionsAt, List.flatMap_cons, ih, sections, f.code_eq_lines]

theorem split_sections (p : Program) (number : Nat) :
    (p.sections number).split = p.sectionsAt number := by
  induction p generalizing number with
  | nil => rfl
  | cons f rest ih =>
    rw [sections, f.code_eq_lines,
      Listing.split_section (f.closed_sectionAt number).inside (atSection_sections rest _), ih]
    rfl

/-- The sections of the listing of a program are those of its functions. -/
theorem split_listing (p : Program) (number : Nat) :
    (p.listing number).split = p.sectionsAt number :=
  p.split_sections number

theorem exists_sectionAt {p : Program} {number : Nat} {s : FunctionSection}
    (h : s ∈ p.sectionsAt number) : ∃ f ∈ p, ∃ n, s = f.sectionAt n := by
  induction p generalizing number with
  | nil => cases h
  | cons f rest ih =>
    rcases List.mem_cons.mp h with rfl | h
    · exact ⟨f, List.mem_cons_self, number, rfl⟩
    · obtain ⟨g, hg, n, rfl⟩ := ih h
      exact ⟨g, List.mem_cons_of_mem _ hg, n, rfl⟩

end Program

end StackCompiler
