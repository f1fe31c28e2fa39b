import Mathlib
import StackCompiler.Proofs.Binding
import StackCompiler.Proofs.Blame
import StackCompiler.Proofs.Sections

/-!
# Labels in the text of listings

An assembler knows a label by its text only. So it takes every jump to the line it is meant to lead
to if no two labels in a listing have the same text.

The main statements are these.
* Marks with the same text are the same mark (`Line.text_inj`).
* In every listing of a program no label is repeated, and all jumps stay in their sections
  (`Program.wellLabelled_of_generate`).
-/

namespace StackCompiler

/-! ## 1. Names of functions -/

/-- The text can be the name of a function. -/
def IsIdentifier (name : String) : Prop :=
  Token.IsLexeme .ident name.toList []

theorem IsIdentifier.exists_start {name : String} (h : IsIdentifier name) :
    ∃ c cs, name.toList = c :: cs ∧ Token.startsWord c := by
  unfold IsIdentifier at h
  generalize name.toList = text at h
  cases h with
  | word start _ _ _ => exact ⟨_, _, rfl, start⟩

theorem Token.IsPlaced.isIdentifier {source name : String} {t : Token} (h : t.IsPlaced source)
    (kind : t.kind = .ident) (text : t.text = some name) : IsIdentifier name := by
  obtain ⟨before, chars, after, -, -, htext, lexeme⟩ := h
  rw [kind] at lexeme
  cases text.symm.trans htext
  unfold IsIdentifier
  rw [String.toList_ofList]
  exact lexeme.anew fun p _ _ => notFirst_nil p

/-- The functions of a program from a source have identifiers as names. -/
theorem Program.isIdentifier_of_ofSource {source : String} {p : Program}
    (h : Program.ofSource source = .ok p) : ∀ f ∈ p, IsIdentifier f.name := by
  intro f hf
  obtain ⟨body, lexes, derivation, -, -⟩ := exists_derivation h
  obtain ⟨⟨t, ht, kind, text, -⟩, -⟩ := derivation.written (List.Subset.refl _) f hf
  exact (lexes.placed t ht).isIdentifier kind text

/-! ## 2. Texts of marks -/

/-- The number of a label is one that has a text of its own. -/
def Target.Spelled : Target → Prop
  | .exit _ => True
  | .numbered _ number => number < Label.capacity

/-- The name of an entry is an identifier, and the number of a label is one that has a text of its
own. -/
def Line.Spelled : Line → Prop
  | .entry function => IsIdentifier function
  | .label target => target.Spelled
  | .dialect | .exported _ | .instr _ => True

/-- Different targets have different texts. -/
theorem Target.text_inj {a b : Target} (ha : a.Spelled) (hb : b.Spelled) (h : a.text = b.text) :
    a = b := by
  have chars := congrArg String.toList h
  cases a with
  | exit f =>
    cases b with
    | exit g => simpa [Target.text, String.toList_inj] using chars
    | numbered role n => cases role <;> simp [Target.text, Role.text] at chars
  | numbered role m =>
    cases b with
    | exit g => cases role <;> simp [Target.text, Role.text] at chars
    | numbered role' n =>
      have same : role = role' ∧ Label.text m = Label.text n := by
        revert chars
        cases role <;> cases role' <;> simp [Target.text, Role.text, String.toList_inj]
      rw [same.1, Label.text_inj ha hb same.2]

/-- Only an entry is written like a name. -/
theorem Line.eq_entry_of_text {line : Line} {c : Char} {cs : List Char}
    (h : line.text.toList = c :: cs) (start : Token.startsWord c) :
    ∃ function, line = .entry function := by
  have dot : c ≠ '.' := by rintro rfl; cases start
  have space : c ≠ ' ' := by rintro rfl; cases start
  cases line with
  | entry function => exact ⟨function, rfl⟩
  | dialect => simp [Line.text, eq_comm, dot] at h
  | exported function => simp [Line.text, eq_comm, dot] at h
  | label target => cases target <;> simp [Line.text, Target.text, eq_comm, dot] at h
  | instr i => simp [Line.text, eq_comm, space] at h

/-- Only a label is written like one. -/
theorem Line.eq_label_of_text {line : Line} {target : Target} (spelled : line.Spelled)
    (h : line.text = (Line.label target).text) : ∃ target', line = .label target' := by
  have chars := congrArg String.toList h
  cases line with
  | label target' => exact ⟨target', rfl⟩
  | entry function =>
    obtain ⟨c, cs, name, start⟩ := IsIdentifier.exists_start spelled
    have chars' : (Line.label target).text.toList = c :: (cs ++ [':']) := by
      rw [← h]
      simp [Line.text, name]
    obtain ⟨_, same⟩ := Line.eq_entry_of_text chars' start
    cases same
  | dialect => cases target <;> simp [Line.text, Target.text] at chars
  | exported function => cases target <;> simp [Line.text, Target.text] at chars
  | instr i => cases target <;> simp [Line.text, Target.text] at chars

/-- A mark is the only line with its text. -/
theorem Line.text_inj {a b : Line} (marked : a.isMark) (ha : a.Spelled) (hb : b.Spelled)
    (h : a.text = b.text) : a = b := by
  cases a with
  | entry f =>
    obtain ⟨c, cs, name, start⟩ := IsIdentifier.exists_start ha
    have chars : b.text.toList = c :: (cs ++ [':']) := by rw [← h]; simp [Line.text, name]
    obtain ⟨g, rfl⟩ := Line.eq_entry_of_text chars start
    have names : f = g := by simpa [Line.text] using h
    rw [names]
  | label target =>
    obtain ⟨target', rfl⟩ := Line.eq_label_of_text hb h.symm
    have targets : target.text = target'.text := by simpa [Line.text] using h
    rw [Target.text_inj ha hb targets]
  | dialect | exported | instr => cases marked

/-- If no mark is repeated, then no text of a mark is. -/
theorem Listing.count_text {lines : Listing} {line : Line} (distinct : lines.marks.Nodup)
    (spelled : ∀ l ∈ lines, l.Spelled) (mem : line ∈ lines) (marked : line.isMark) :
    (lines.map Line.text).count line.text = 1 := by
  have same : ∀ l ∈ lines, (l.text == line.text) = true ↔ (l == line) = true := by
    intro l hl
    rw [beq_iff_eq, beq_iff_eq]
    refine ⟨fun h => ?_, congrArg Line.text⟩
    exact (Line.text_inj marked (spelled line mem) (spelled l hl) h.symm).symm
  calc (lines.map Line.text).count line.text
      = lines.countP fun l => l.text == line.text := List.countP_map
    _ = lines.count line := List.countP_congr same
    _ = lines.marks.count line := (List.count_filter marked).symm
    _ = 1 := List.count_eq_one_of_mem distinct (mem_marks marked mem)

/-! ## 3. Listings of programs -/

/-- Every numbered label bears a number from `low` on and below `high`. -/
def Listing.NumbersIn (low high : Nat) (lines : Listing) : Prop :=
  ∀ role number, .label (.numbered role number) ∈ lines → low ≤ number ∧ number < high

namespace Program

variable {p : Program} {s s' : Label.Supply} {lines : Listing}

/-- The labels of a listing bear the numbers that are taken for it. -/
theorem numbersIn_of_generate (h : p.generate s = (.ok lines, s')) :
    lines.NumbersIn s.taken s'.taken := by
  intro role number mem
  obtain ⟨admitted, rfl⟩ := generate_eq_ok h
  have mark : .label (.numbered role number) ∈ (p.sections s.taken).marks :=
    Listing.mem_marks rfl (List.mem_of_ne_of_mem (by simp) mem)
  rw [taken_of_admission admitted]
  rcases mem_marks_sections mark with ⟨_, _, same, low, high⟩ | ⟨f, -, own⟩
  · cases same
    exact ⟨low, high⟩
  · simp [Function.ownMarks] at own

/-- Labels are taken, and none is given back. -/
theorem taken_le_of_generate {r : Except Located Listing} (h : p.generate s = (r, s')) :
    s.taken ≤ s'.taken := by
  cases r with
  | ok lines =>
    obtain ⟨admitted, -⟩ := generate_eq_ok h
    rw [taken_of_admission admitted]
    exact Nat.le_add_right _ _
  | error l =>
    obtain ⟨before, -, -, -, taken⟩ := generate_eq_error_iff.mp h
    rw [taken]
    exact Nat.le_add_right _ _

theorem spelled_of_generate (names : ∀ f ∈ p, IsIdentifier f.name)
    (h : p.generate s = (.ok lines, s')) : ∀ line ∈ lines, line.Spelled := by
  intro line mem
  have numbers := numbersIn_of_generate h
  cases line with
  | label target =>
    cases target with
    | exit f => trivial
    | numbered role number => exact (numbers role number mem).2.trans_le s'.taken_le
  | entry function =>
    obtain ⟨-, rfl⟩ := generate_eq_ok h
    have mark : .entry function ∈ (p.sections s.taken).marks :=
      Listing.mem_marks rfl (List.mem_of_ne_of_mem (by simp) mem)
    rcases mem_marks_sections mark with ⟨_, _, same, -, -⟩ | ⟨f, hf, own⟩
    · cases same
    · obtain rfl : function = f.name := by simpa [Function.ownMarks] using own
      exact names f hf
  | dialect | exported | instr => trivial

end Program

/-- The labels of a listing can be told apart, and its jumps stay in their functions. -/
structure Listing.WellLabelled (lines : Listing) : Prop where
  /-- The listing consists of its sections, after the choice of a dialect. -/
  sections : lines = .dialect :: lines.split.flatMap FunctionSection.lines
  /-- The text of a mark is found in no other line. -/
  once : ∀ line ∈ lines, line.isMark → (lines.map Line.text).count line.text = 1
  /-- In each section there is one place where its function returns. -/
  exits : ∀ part ∈ lines.split, part.lines.filter Line.isExit = [.label (.exit part.function)]
  /-- Jumps lead to labels of the same section. -/
  closed : ∀ part ∈ lines.split, ∀ i target, .instr i ∈ part.lines → i.target? = some target →
    .label target ∈ part.lines

theorem Function.label_of_jump {f : Function} {number : Nat} {i : Instr} {target : Target}
    (mem : .instr i ∈ (f.sectionAt number).lines) (jumps : i.target? = some target) :
    .label target ∈ (f.sectionAt number).lines := by
  rcases List.mem_cons.mp mem with same | mem
  · cases same
  rcases (f.closed_sectionAt number).jumps i target mem jumps with outer | here
  · cases outer
  · exact List.mem_cons_of_mem _ here

theorem Program.wellLabelled_of_generate {p : Program} {s s' : Label.Supply} {lines : Listing}
    (names : ∀ f ∈ p, IsIdentifier f.name) (h : p.generate s = (.ok lines, s')) :
    lines.WellLabelled := by
  have spelled := spelled_of_generate names h
  obtain ⟨admitted, rfl⟩ := generate_eq_ok h
  have distinct := p.nodup_marks_listing s.taken (nodup_names_of_admission admitted)
  constructor
  · rw [p.split_listing, p.lines_sectionsAt]
    rfl
  · exact fun line mem marked => Listing.count_text distinct spelled mem marked
  · intro part hp
    rw [p.split_listing] at hp
    obtain ⟨f, -, number, rfl⟩ := exists_sectionAt hp
    exact f.exits_sectionAt number
  · intro part hp i target mem jumps
    rw [p.split_listing] at hp
    obtain ⟨f, -, number, rfl⟩ := exists_sectionAt hp
    exact Function.label_of_jump mem jumps

/-! ## 4. Listings of sources -/

/-- What is compiled from a source is generated for the program it is read as. -/
theorem exists_program_of_compileWith {source : String} {s s' : Label.Supply} {lines : Listing}
    (h : compileWith source s = (.ok lines, s')) :
    ∃ p, Program.ofSource source = .ok p ∧ p.generate s = (.ok lines, s') := by
  cases read : Program.ofSource source with
  | error l =>
    rw [compileWith_of_not_read read] at h
    cases h
  | ok p =>
    rw [compileWith_of_read read] at h
    refine ⟨p, rfl, ?_⟩
    cases generated : p.generate s with
    | mk result rest =>
      rw [generated] at h
      cases result with
      | error l => cases h
      | ok lines =>
        cases h
        rfl

theorem taken_le_of_compileWith {source : String} {s s' : Label.Supply}
    {r : Except Diagnostic Listing} (h : compileWith source s = (r, s')) : s.taken ≤ s'.taken := by
  cases read : Program.ofSource source with
  | error l =>
    rw [compileWith_of_not_read read] at h
    cases h
    exact Nat.le_refl _
  | ok p =>
    rw [compileWith_of_read read] at h
    cases h
    exact Program.taken_le_of_generate (p := p) rfl

end StackCompiler
