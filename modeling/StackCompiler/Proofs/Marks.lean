import StackCompiler.Proofs.Machine
import StackCompiler.Proofs.Numbering

/-!
# Marks of a listing

Labels and entries are the marks of a listing: the lines that jumps and calls lead to. A listing
in which no mark occurs twice is unambiguous, because then a jump leads to the only line it can
mean.

The main statements are these.
* In a listing without repeated marks a mark leads to the place where it stands
  (`startingAt?_of_suffix`).
* The labels in the code of an expression or a statement bear exactly the numbers that are counted
  for it, so the code has no repeated mark (`Expr.numbered_code`, `Stmt.numbered_code`).
* A program whose functions have different names has a listing without repeated marks
  (`Program.nodup_marks_listing`).
-/

namespace StackCompiler

/-! ## 1. Marks -/

/-- Whether a line is one that jumps or calls lead to. -/
def Line.isMark : Line → Bool
  | .label _ | .entry _ => true
  | .dialect | .exported _ | .instr _ => false

namespace Listing

/-- The labels and entries of a listing, in order. -/
def marks (lines : Listing) : List Line :=
  lines.filter (·.isMark)

@[simp] theorem marks_nil : marks [] = [] := rfl

@[simp] theorem marks_append (xs ys : Listing) : marks (xs ++ ys) = marks xs ++ marks ys :=
  List.filter_append ..

@[simp] theorem marks_label (target : Target) (rest : Listing) :
    marks (.label target :: rest) = .label target :: marks rest := rfl

@[simp] theorem marks_entry (function : String) (rest : Listing) :
    marks (.entry function :: rest) = .entry function :: marks rest := rfl

@[simp] theorem marks_exported (function : String) (rest : Listing) :
    marks (.exported function :: rest) = marks rest := rfl

@[simp] theorem marks_dialect (rest : Listing) : marks (.dialect :: rest) = marks rest := rfl

@[simp] theorem marks_instrs (is : List Instr) : marks (instrs is) = [] := by
  induction is with
  | nil => rfl
  | cons i is ih => exact ih

theorem mem_marks {line : Line} {lines : Listing} (marked : line.isMark) (h : line ∈ lines) :
    line ∈ marks lines :=
  List.mem_filter.mpr ⟨h, marked⟩

/-- A mark that is not repeated leads to the place where it stands. -/
theorem startingAt?_of_suffix {line : Line} {rest lines : Listing} (distinct : (marks lines).Nodup)
    (marked : line.isMark) (suffix : line :: rest <:+ lines) :
    lines.startingAt? line = some (line :: rest) := by
  induction lines with
  | nil => exact absurd suffix.length_le (by simp)
  | cons first tail ih =>
    rcases List.suffix_cons_iff.mp suffix with whole | later
    · cases whole
      simp [startingAt?]
    · have later_mem : line ∈ marks tail := mem_marks marked (later.subset (List.mem_cons_self ..))
      have tail_distinct : (marks tail).Nodup :=
        distinct.sublist ((List.sublist_cons_self ..).filter _)
      have ne : first ≠ line := by
        rintro rfl
        rw [marks, List.filter_cons_of_pos marked] at distinct
        exact (List.nodup_cons.mp distinct).1 later_mem
      rw [startingAt?, if_neg ne]
      exact ih tail_distinct later

end Listing

/-! ## 2. Labels of code -/

/-- A label with a number from `low` on and below `high`. -/
def Line.NumberedIn (low high : Nat) (line : Line) : Prop :=
  ∃ role number, line = .label (.numbered role number) ∧ low ≤ number ∧ number < high

/-- Code without repeated marks whose only marks are labels numbered from `low` on and below
`high`. -/
structure Listing.Numbered (low high : Nat) (lines : Listing) : Prop where
  distinct : lines.marks.Nodup
  within : ∀ mark ∈ lines.marks, mark.NumberedIn low high

namespace Listing.Numbered

theorem instrs (low high : Nat) (is : List Instr) : Numbered low high (instrs is) :=
  ⟨by simp, by simp⟩

theorem nil (low high : Nat) : Numbered low high [] :=
  instrs low high []

theorem widen {low high low' high' : Nat} {lines : Listing} (h : Numbered low high lines)
    (lower : low' ≤ low) (higher : high ≤ high') : Numbered low' high' lines := by
  refine ⟨h.distinct, fun mark hm => ?_⟩
  obtain ⟨role, number, rfl, h₁, h₂⟩ := h.within mark hm
  exact ⟨role, number, rfl, by omega, by omega⟩

/-- Code with lower numbers before code with higher ones. -/
theorem append {low middle high : Nat} {xs ys : Listing} (hx : Numbered low middle xs)
    (hy : Numbered middle high ys) (le₁ : low ≤ middle) (le₂ : middle ≤ high) :
    Numbered low high (xs ++ ys) := by
  constructor
  · rw [marks_append, List.nodup_append]
    refine ⟨hx.distinct, hy.distinct, fun a ha b hb => ?_⟩
    obtain ⟨_, m, rfl, _, hm⟩ := hx.within a ha
    obtain ⟨_, n, rfl, hn, _⟩ := hy.within b hb
    rintro ⟨⟩
    omega
  · intro mark hm
    rw [marks_append, List.mem_append] at hm
    rcases hm with hm | hm
    · exact (hx.widen (Nat.le_refl _) le₂).within mark hm
    · exact (hy.widen le₁ (Nat.le_refl _)).within mark hm

/-- Code that has labels of one number besides those of code with higher numbers. -/
theorem own {low high : Nat} {core lines : Listing} (roles : List Role)
    (h : Numbered (low + 1) high core) (lt : low < high) (distinct : roles.Nodup)
    (perm : (marks lines).Perm
      (roles.map (fun role => .label (.numbered role low)) ++ marks core)) :
    Numbered low high lines := by
  constructor
  · rw [perm.nodup_iff, List.nodup_append]
    refine ⟨?_, h.distinct, fun a ha b hb => ?_⟩
    · apply List.Pairwise.map _ _ distinct
      intro a b ne
      simpa using ne
    · obtain ⟨role, _, rfl⟩ := List.mem_map.mp ha
      obtain ⟨_, n, rfl, hn, _⟩ := h.within b hb
      rintro ⟨⟩
      omega
  · intro mark hm
    rcases List.mem_append.mp (perm.mem_iff.mp hm) with hm | hm
    · obtain ⟨role, _, rfl⟩ := List.mem_map.mp hm
      exact ⟨role, low, rfl, Nat.le_refl _, lt⟩
    · exact (h.widen (Nat.le_succ _) (Nat.le_refl _)).within mark hm

end Listing.Numbered

theorem marks_callCode (name : String) (args number : Nat) :
    Listing.marks (callCode name args number) =
      [.label (.numbered .padded number), .label (.numbered .done number)] := by
  simp [callCode]

open Listing (Numbered marks)

mutual

/-- The labels in the code of an expression bear the numbers that are counted for it. -/
theorem Expr.numbered_code (e : Expr) (number : Nat) :
    Numbered number (number + e.labels) (e.code number) := by
  cases e with
  | num value => exact .instrs ..
  | var name offset loc => exact .instrs ..
  | binary op lhs rhs =>
    rw [Expr.code, Expr.labels, ← Nat.add_assoc]
    have operands := (lhs.numbered_code number).append (rhs.numbered_code (number + lhs.labels))
      (by omega) (by omega)
    exact operands.append (.instrs ..) (by omega) (Nat.le_refl _)
  | assign target value loc =>
    rw [Expr.code, Expr.labels]
    have operands := (Numbered.instrs number number target.addressCode).append
      (value.numbered_code number) (Nat.le_refl _) (by omega)
    exact operands.append (.instrs ..) (by omega) (Nat.le_refl _)
  | call name args loc =>
    rw [Expr.code, Expr.labels, ← Nat.add_assoc]
    have call : Numbered (number + labelsOfArgs args) (number + labelsOfArgs args + 1)
        (callCode name args.length (number + labelsOfArgs args)) := by
      apply Numbered.own [.padded, .done] (.nil ..) (by omega) (by decide)
      rw [marks_callCode]
      simp
    exact (numbered_codeOfArgs args number).append call (by omega) (by omega)

/-- The labels in the code of arguments bear the numbers that are counted for them. -/
theorem numbered_codeOfArgs (args : List Expr) (number : Nat) :
    Numbered number (number + labelsOfArgs args) (codeOfArgs number args) := by
  cases args with
  | nil => exact .nil ..
  | cons arg args =>
    rw [codeOfArgs, labelsOfArgs, ← Nat.add_assoc]
    exact (arg.numbered_code number).append (numbered_codeOfArgs args (number + arg.labels))
      (by omega) (by omega)

end

theorem Expr.numbered_effectCode (e : Expr) (number : Nat) :
    Numbered number (number + e.labels) (e.effectCode number) :=
  (e.numbered_code number).append (.instrs ..) (by omega) (Nat.le_refl _)

theorem Expr.numbered_branchCode (e : Expr) (number : Nat) (target : Target) :
    Numbered number (number + e.labels) (e.branchCode number target) :=
  (e.numbered_code number).append (.instrs ..) (by omega) (Nat.le_refl _)

theorem numbered_clause {number : Nat} {code : Expr → List Line} (clause : Option Expr)
    (h : ∀ e, Numbered number (number + e.labels) (code e)) :
    Numbered number (number + labelsOfClause clause) (clause.elim [] code) := by
  cases clause with
  | none => exact .nil ..
  | some e => exact h e

mutual

/-- The labels in the code of a statement bear the numbers that are counted for it. -/
theorem Stmt.numbered_code (s : Stmt) (function : String) (number : Nat) :
    Numbered number (number + s.labels) (s.code function number) := by
  match s with
  | .ret value =>
    rw [Stmt.code, Stmt.labels]
    exact (value.numbered_code number).append (.instrs ..) (by omega) (Nat.le_refl _)
  | .expr e => exact e.numbered_effectCode number
  | .block body => exact numbered_codeOfBlock body function number
  | .cond test yes none =>
    rw [Stmt.code, Stmt.labels]
    have core := (test.numbered_branchCode (number + 1) (.numbered .done number)).append
      (yes.numbered_code function (number + 1 + test.labels)) (by omega) (by omega)
    apply Numbered.own [.done] (core.widen (Nat.le_refl _) (by omega)) (by omega)
      (by decide)
    apply List.perm_iff_count.mpr
    intro line
    simp [List.count_append, List.count_cons]
    omega
  | .cond test yes (some no) =>
    rw [Stmt.code, Stmt.labels]
    have core := ((test.numbered_branchCode (number + 1) (.numbered .otherwise number)).append
      (yes.numbered_code function (number + 1 + test.labels)) (by omega) (by omega)).append
      (no.numbered_code function (number + 1 + test.labels + yes.labels)) (by omega) (by omega)
    apply Numbered.own [.otherwise, .done] (core.widen (Nat.le_refl _) (by omega))
      (by omega) (by decide)
    apply List.perm_iff_count.mpr
    intro line
    simp [List.count_append, List.count_cons]
    omega
  | .loop start test next body =>
    rw [Stmt.code, Stmt.labels]
    have core := (((numbered_clause start
      fun e => e.numbered_effectCode (number + 1)).append (numbered_clause test
      fun e => e.numbered_branchCode _ (.numbered .done number)) (by omega) (by omega)).append
      (body.numbered_code function _) (by omega) (by omega)).append (numbered_clause next
      fun e => e.numbered_effectCode _) (by omega) (by omega)
    apply Numbered.own [.again, .done] (core.widen (Nat.le_refl _) (by omega)) (by omega)
      (by decide)
    apply List.perm_iff_count.mpr
    intro line
    simp [List.count_append, List.count_cons]
    omega

/-- The labels in the code of a block bear the numbers that are counted for it. -/
theorem numbered_codeOfBlock (body : List Stmt) (function : String) (number : Nat) :
    Numbered number (number + labelsOfBlock body) (codeOfBlock function number body) := by
  match body with
  | [] => exact .nil ..
  | s :: rest =>
    rw [codeOfBlock, labelsOfBlock, ← Nat.add_assoc]
    exact (s.numbered_code function number).append
      (numbered_codeOfBlock rest function (number + s.labels)) (by omega) (by omega)

end

/-! ## 3. Marks of a program -/

/-- The marks that a function has under its own name. -/
def Function.ownMarks (f : Function) : List Line :=
  [.entry f.name, .label (.exit f.name)]

theorem Function.marks_code (f : Function) (number : Nat) :
    (marks (f.code number)).Perm (f.ownMarks ++ marks (codeOfBlock f.name number f.body)) := by
  apply List.perm_iff_count.mpr
  intro line
  simp [Function.code, Function.ownMarks, List.count_append, List.count_cons]

/-- The marks of a function are the labels counted for it and those under its own name. -/
theorem Function.mem_marks_code {f : Function} {number : Nat} {mark : Line}
    (h : mark ∈ marks (f.code number)) :
    mark.NumberedIn number (number + f.labels) ∨ mark ∈ f.ownMarks := by
  rcases List.mem_append.mp ((f.marks_code number).mem_iff.mp h) with own | counted
  · exact .inr own
  · exact .inl ((numbered_codeOfBlock f.body f.name number).within mark counted)

theorem Function.not_numberedIn {f : Function} {low high : Nat} {mark : Line}
    (own : mark ∈ f.ownMarks) : ¬ mark.NumberedIn low high := by
  rintro ⟨_, _, rfl, _⟩
  simp [ownMarks] at own

theorem Function.name_eq_of_ownMarks {f g : Function} {mark : Line} (hf : mark ∈ f.ownMarks)
    (hg : mark ∈ g.ownMarks) : f.name = g.name := by
  simp only [ownMarks, List.mem_cons, List.not_mem_nil, or_false] at hf hg
  rcases hf with rfl | rfl <;> simpa using hg

theorem Function.nodup_marks_code (f : Function) (number : Nat) :
    (marks (f.code number)).Nodup := by
  have body := numbered_codeOfBlock f.body f.name number
  rw [(f.marks_code number).nodup_iff, List.nodup_append]
  refine ⟨by simp [ownMarks], body.distinct, ?_⟩
  rintro mark own _ counted rfl
  exact f.not_numberedIn own (body.within mark counted)

/-- The marks of a program's sections are the labels counted for it and the marks that its
functions have under their names. -/
theorem Program.mem_marks_sections {p : Program} {number : Nat} {mark : Line}
    (h : mark ∈ marks (p.sections number)) :
    mark.NumberedIn number (number + p.labels) ∨ ∃ f ∈ p, mark ∈ f.ownMarks := by
  induction p generalizing number with
  | nil => cases h
  | cons f rest ih =>
    rw [Program.sections, Listing.marks_append] at h
    rw [Program.labels]
    rcases List.mem_append.mp h with here | later
    · rcases f.mem_marks_code here with ⟨role, n, rfl, low, high⟩ | own
      · exact .inl ⟨role, n, rfl, low, by omega⟩
      · exact .inr ⟨f, List.mem_cons_self .., own⟩
    · rcases ih later with ⟨role, n, rfl, low, high⟩ | ⟨g, hg, own⟩
      · exact .inl ⟨role, n, rfl, by omega, by omega⟩
      · exact .inr ⟨g, List.mem_cons_of_mem _ hg, own⟩

/-- No mark is repeated if the names of the functions differ. -/
theorem Program.nodup_marks_sections {p : Program} (number : Nat)
    (names : (p.map (·.name)).Nodup) : (marks (p.sections number)).Nodup := by
  induction p generalizing number with
  | nil => exact List.nodup_nil
  | cons f rest ih =>
    rw [List.map_cons, List.nodup_cons] at names
    rw [Program.sections, Listing.marks_append, List.nodup_append]
    refine ⟨f.nodup_marks_code number, ih _ names.2, ?_⟩
    rintro mark here _ later rfl
    -- counted labels lie in ranges of their own, and other marks bear names
    rcases f.mem_marks_code here with counted | own <;>
      rcases Program.mem_marks_sections later with counted' | ⟨g, hg, own'⟩
    · obtain ⟨_, m, rfl, _, high⟩ := counted
      obtain ⟨_, n, same, low, _⟩ := counted'
      cases same
      omega
    · exact g.not_numberedIn own' counted
    · exact f.not_numberedIn own counted'
    · exact names.1 (f.name_eq_of_ownMarks own own' ▸ List.mem_map_of_mem hg)

/-- A program whose functions have different names has a listing without repeated marks. -/
theorem Program.nodup_marks_listing {p : Program} (number : Nat) (names : (p.map (·.name)).Nodup) :
    (marks (p.listing number)).Nodup :=
  p.nodup_marks_sections number names

end StackCompiler
