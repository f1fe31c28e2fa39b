import Mathlib
import StackCompiler.Proofs.Assembly

/-!
# Listings compiled with one supply

Sources can be compiled one after another with labels from one supply. Every label is taken once,
so the listings can be assembled into one file (`compileAll_labelled`).
-/

namespace StackCompiler

/-- Every listing has labels that are left when its compilation begins. -/
theorem le_of_mem_compileAll {sources : List String} {s : Label.Supply} {lines : Listing}
    (h : .ok lines ∈ (compileAll sources s).1) {role : Role} {number : Nat}
    (mem : .label (.numbered role number) ∈ lines) : s.taken ≤ number := by
  induction sources generalizing s with
  | nil => cases h
  | cons source rest ih =>
    rcases List.mem_cons.mp h with first | later
    · obtain ⟨p, -, generated⟩ := exists_program_of_compileWith (Prod.ext first.symm rfl)
      exact (Program.numbersIn_of_generate generated role number mem).1
    · exact (taken_le_of_compileWith rfl).trans (ih later)

theorem pairwise_compileAll (sources : List String) (s : Label.Supply) :
    (compileAll sources s).1.Pairwise fun x y => ∀ xs ys, x = .ok xs → y = .ok ys →
      ∀ role number role' number', .label (.numbered role number) ∈ xs →
        .label (.numbered role' number') ∈ ys → number < number' := by
  induction sources generalizing s with
  | nil => exact .nil
  | cons source rest ih =>
    refine .cons ?_ (ih _)
    rintro y hy xs ys hx rfl role number role' number' hn hn'
    obtain ⟨p, -, generated⟩ := exists_program_of_compileWith (Prod.ext hx rfl)
    exact (Program.numbersIn_of_generate generated role number hn).2.trans_le
      (le_of_mem_compileAll hy hn')

/-- Every listing is generated for a program that is read from a source. -/
theorem exists_program_of_mem_compileAll {sources : List String} {s : Label.Supply}
    {lines : Listing} (h : .ok lines ∈ (compileAll sources s).1) :
    ∃ source p r r', Program.ofSource source = .ok p ∧ p.generate r = (.ok lines, r') := by
  induction sources generalizing s with
  | nil => cases h
  | cons source rest ih =>
    rcases List.mem_cons.mp h with first | later
    · obtain ⟨p, read, generated⟩ := exists_program_of_compileWith (Prod.ext first.symm rfl)
      exact ⟨source, p, _, _, read, generated⟩
    · exact ih later

/-- Two listings do not have a numbered label in common. -/
theorem label_not_mem_of_ne {sources : List String} {s : Label.Supply} {xs ys : Listing} {i j : Nat}
    (ne : i ≠ j) (hx : (compileAll sources s).1[i]? = some (.ok xs))
    (hy : (compileAll sources s).1[j]? = some (.ok ys)) {role : Role} {number : Nat}
    (mem : .label (.numbered role number) ∈ xs) : .label (.numbered role number) ∉ ys := by
  intro mem'
  have ordered := List.pairwise_iff_getElem.mp (pairwise_compileAll sources s)
  obtain ⟨hi, hx⟩ := List.getElem?_eq_some_iff.mp hx
  obtain ⟨hj, hy⟩ := List.getElem?_eq_some_iff.mp hy
  rcases Nat.lt_or_gt_of_ne ne with lt | gt
  · exact Nat.lt_irrefl _ (ordered i j hi hj lt xs ys hx hy _ _ _ _ mem mem')
  · exact Nat.lt_irrefl _ (ordered j i hj hi gt ys xs hy hx _ _ _ _ mem' mem)

/-- Labels can be told apart, and jumps stay in their functions. This holds of every listing that
is compiled from one of several sources with one supply, whatever labels are taken at the start
and whatever sources are rejected in between, and it is this listing that its text is read as. No
text of a numbered label in one of the listings is found in another one. -/
theorem compileAll_labelled (sources : List String) (s : Label.Supply) :
    (∀ lines, .ok lines ∈ (compileAll sources s).1 →
        Listing.ofText? lines.text = some lines ∧ lines.WellLabelled) ∧
      ∀ (i j : Nat) (xs ys : Listing), i ≠ j → (compileAll sources s).1[i]? = some (.ok xs) →
        (compileAll sources s).1[j]? = some (.ok ys) →
        ∀ role number, .label (.numbered role number) ∈ xs →
          (Line.label (.numbered role number)).text ∉ ys.map Line.text := by
  refine ⟨fun lines mem => ?_, fun i j xs ys ne hx hy role number mem same => ?_⟩
  · obtain ⟨source, p, r, r', read, generated⟩ := exists_program_of_mem_compileAll mem
    exact ⟨Program.ofText?_of_ofSource read generated,
      Program.wellLabelled_of_generate (Program.isIdentifier_of_ofSource read) generated⟩
  · obtain ⟨line, mem', text⟩ := List.mem_map.mp same
    obtain ⟨source, p, r, r', read, generated⟩ :=
      exists_program_of_mem_compileAll (List.mem_of_getElem? hx)
    obtain ⟨source', p', t, t', read', generated'⟩ :=
      exists_program_of_mem_compileAll (List.mem_of_getElem? hy)
    have spelled :=
      Program.spelled_of_generate (Program.isIdentifier_of_ofSource read) generated _ mem
    have spelled' :=
      Program.spelled_of_generate (Program.isIdentifier_of_ofSource read') generated' line mem'
    rw [← Line.text_inj rfl spelled spelled' text.symm] at mem'
    exact label_not_mem_of_ne ne hx hy mem mem'

end StackCompiler
