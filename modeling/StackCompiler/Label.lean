/-!
# Labels

Jump targets of branches, loops and calls are numbered through one supply. A number is written
with three letters, as a number of base 26 whose digits are `A` to `Z`, so there are 26³ labels.
The labels of one supply are given out in order and never twice.

The main statements are these.
* Different labels have different texts (`text_inj`).
* Taking a label gives the number of labels taken before, and one more is taken afterwards
  (`take?_eq_some`).
* No label is left exactly if all are taken (`take?_eq_none`).
* Asking `n` times leaves what skipping `n` labels leaves (`takeMany_snd`).
-/

namespace StackCompiler

namespace Label

/-- The number of different letters. -/
def radix : Nat := 26

/-- The number of different labels. -/
def capacity : Nat := radix * radix * radix

/-- The letter for a digit. -/
def letter (digit : Nat) : Char :=
  Char.ofNat ('A'.toNat + digit)

/-- The three digits of a label number, highest first. -/
def digits (number : Nat) : List Nat :=
  [number / (radix * radix) % radix, number / radix % radix, number % radix]

/-- The text of the label with the given number. -/
def text (number : Nat) : String :=
  String.ofList ((digits number).map letter)

theorem letter_inj : ∀ d < radix, ∀ e < radix, letter d = letter e → d = e := by
  decide

/-- Different labels have different texts. -/
theorem text_inj {m n : Nat} (hm : m < capacity) (hn : n < capacity) (h : text m = text n) :
    m = n := by
  simp only [text, digits, String.ofList_inj, List.map_cons, List.map_nil, List.cons.injEq,
    and_true] at h
  have digit_lt : ∀ k, k % radix < radix := fun k => Nat.mod_lt k (by decide)
  have high := letter_inj _ (digit_lt _) _ (digit_lt _) h.1
  have middle := letter_inj _ (digit_lt _) _ (digit_lt _) h.2.1
  have low := letter_inj _ (digit_lt _) _ (digit_lt _) h.2.2
  simp only [capacity, radix] at hm hn high middle low
  omega

/-- A supply of labels, of which the first `taken` are given out. -/
structure Supply where
  taken : Nat
  taken_le : taken ≤ capacity
  deriving Repr, DecidableEq

namespace Supply

/-- The supply of which no label is taken. -/
def full : Supply :=
  ⟨0, Nat.zero_le _⟩

/-- The next label and the supply without it, unless all labels are taken. -/
def take? (s : Supply) : Option (Nat × Supply) :=
  if h : s.taken < capacity then some (s.taken, ⟨s.taken + 1, h⟩) else none

/-- Asks for a label `n` times in a row. -/
def takeMany : Nat → Supply → List (Option Nat) × Supply
  | 0, s => ([], s)
  | n + 1, s =>
    match s.take? with
    | none => (List.replicate (n + 1) none, s)
    | some (number, s) =>
      let (numbers, s) := takeMany n s
      (some number :: numbers, s)

/-- The supply without the next `n` labels, or without any labels if fewer are left. -/
def skip (n : Nat) (s : Supply) : Supply where
  taken := min (s.taken + n) capacity
  taken_le := Nat.min_le_right _ _

theorem take?_eq_some {s s' : Supply} {number : Nat} :
    s.take? = some (number, s') ↔ number = s.taken ∧ s'.taken = s.taken + 1 := by
  constructor
  · intro h
    unfold take? at h
    split at h
    · cases h; exact ⟨rfl, rfl⟩
    · cases h
  · rintro ⟨rfl, h⟩
    have room : s.taken < capacity := by
      have := s'.taken_le
      omega
    cases s'
    subst h
    simp [take?, room]

theorem take?_eq_none {s : Supply} : s.take? = none ↔ s.taken = capacity := by
  have := s.taken_le
  unfold take?
  split
  · next room => simp; omega
  · next room => simp; omega

theorem takeMany_snd (n : Nat) (s : Supply) : (takeMany n s).2 = s.skip n := by
  induction n generalizing s with
  | zero =>
    have := s.taken_le
    cases s
    simp only [takeMany, skip, Supply.mk.injEq]
    omega
  | succ n ih =>
    unfold takeMany
    split
    · next h =>
      rw [take?_eq_none] at h
      cases s
      simp only [skip, Supply.mk.injEq]
      simp only at h
      omega
    · next number s' h =>
      have := (take?_eq_some.mp h).2
      simp only [ih, skip, Supply.mk.injEq]
      omega

end Supply

end Label

end StackCompiler
