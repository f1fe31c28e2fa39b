/-!
# Text cut at byte offsets

Positions in a source text count UTF-8 bytes, while a text is read character by character.
This file holds the operations that join the two views: cutting a text at a byte offset, and
taking the slice between two offsets.

The main statements are these.
* A cut loses nothing (`cut_append`).
* The part before a cut fits the offset (`cut_byteSize_le`).
* The first character after a cut does not fit any more (`cut_maximal`), so the cut is at the
  greatest character boundary that is not above the offset.
* A slice exists exactly where a part of the text has that start and that size
  (`slice?_eq_some_iff`).
-/

namespace StackCompiler

namespace Text

/-! ## 1. Sizes -/

/-- The number of bytes a run of characters takes up. -/
def byteSize : List Char → Nat
  | [] => 0
  | c :: cs => c.utf8Size + byteSize cs

@[simp] theorem byteSize_nil : byteSize [] = 0 := rfl

@[simp] theorem byteSize_cons (c : Char) (cs : List Char) :
    byteSize (c :: cs) = c.utf8Size + byteSize cs := rfl

@[simp] theorem byteSize_append (xs ys : List Char) :
    byteSize (xs ++ ys) = byteSize xs + byteSize ys := by
  induction xs with
  | nil => simp
  | cons c cs ih => simp [ih, Nat.add_assoc]

@[simp] theorem byteSize_reverse (cs : List Char) : byteSize cs.reverse = byteSize cs := by
  induction cs with
  | nil => rfl
  | cons c cs ih => simp [ih, Nat.add_comm]

theorem byteSize_eq_utf8ByteSize (cs : List Char) :
    byteSize cs = (String.ofList cs).utf8ByteSize := by
  induction cs with
  | nil => simp
  | cons c cs ih =>
    have split : String.ofList (c :: cs) = String.singleton c ++ String.ofList cs := by
      rw [String.singleton_eq_ofList, ← String.ofList_append]
      rfl
    rw [byteSize_cons, ih, split, String.utf8ByteSize_append, String.utf8ByteSize_singleton]

/-- The size of a string is the size of its characters. -/
@[simp] theorem byteSize_toList (s : String) : byteSize s.toList = s.utf8ByteSize := by
  rw [byteSize_eq_utf8ByteSize, String.ofList_toList]

/-! ## 2. The cut -/

/-- Moves characters from the front of a text to `before`, last one first, for as long as the
next one fits into what is left of `budget` bytes. -/
def cutFrom (before : List Char) : Nat → List Char → List Char × List Char
  | _, [] => (before, [])
  | budget, c :: after =>
    if c.utf8Size ≤ budget then cutFrom (c :: before) (budget - c.utf8Size) after
    else (before, c :: after)

/-- A text cut at the greatest character boundary that is not above `offset` bytes. The part
before the cut comes reversed, because its end is what a reader of the cut looks at first. -/
def cut (offset : Nat) (cs : List Char) : List Char × List Char :=
  cutFrom [] offset cs

/-- The characters that take up exactly the `size` bytes from the byte `start` on. There are none
where that range is not within the text, or begins or ends inside a character. -/
def slice? (start size : Nat) (cs : List Char) : Option (List Char) :=
  let (before, after) := cut start cs
  let (inside, _) := cut size after
  if byteSize before = start ∧ byteSize inside = size then some inside.reverse else none

theorem cutFrom_append (before : List Char) (budget : Nat) (cs : List Char) :
    (cutFrom before budget cs).1.reverse ++ (cutFrom before budget cs).2 =
      before.reverse ++ cs := by
  induction cs generalizing before budget with
  | nil => simp [cutFrom]
  | cons c cs ih =>
    rw [cutFrom]
    split
    · rw [ih]; simp
    · rfl

theorem cutFrom_byteSize_le (before : List Char) (budget : Nat) (cs : List Char) :
    byteSize (cutFrom before budget cs).1 ≤ byteSize before + budget := by
  induction cs generalizing before budget with
  | nil => simp [cutFrom]
  | cons c cs ih =>
    rw [cutFrom]
    split
    · have := ih (c :: before) (budget - c.utf8Size)
      simp only [byteSize_cons] at this
      omega
    · simp

theorem cutFrom_maximal {before : List Char} {budget : Nat} {cs : List Char} {c : Char}
    {after : List Char} (h : (cutFrom before budget cs).2 = c :: after) :
    byteSize before + budget < byteSize (cutFrom before budget cs).1 + c.utf8Size := by
  induction cs generalizing before budget with
  | nil => simp [cutFrom] at h
  | cons d cs ih =>
    rw [cutFrom] at h ⊢
    split
    · next fits =>
      rw [if_pos fits] at h
      have := ih h
      simp only [byteSize_cons] at this
      omega
    · next large =>
      rw [if_neg large] at h
      cases h
      simp only
      omega

/-- A cut loses nothing and keeps the order. -/
theorem cut_append (offset : Nat) (cs : List Char) :
    (cut offset cs).1.reverse ++ (cut offset cs).2 = cs := by
  simpa [cut] using cutFrom_append [] offset cs

/-- What stands before a cut takes up at most as many bytes as the offset says. -/
theorem cut_byteSize_le (offset : Nat) (cs : List Char) :
    byteSize (cut offset cs).1 ≤ offset := by
  simpa [cut] using cutFrom_byteSize_le [] offset cs

/-- The first character after a cut would take the part before it past the offset. -/
theorem cut_maximal {offset : Nat} {cs : List Char} {c : Char} {after : List Char}
    (h : (cut offset cs).2 = c :: after) :
    offset < byteSize (cut offset cs).1 + c.utf8Size := by
  simpa [cut] using cutFrom_maximal h

/-! ## 3. Exact cuts -/

theorem cutFrom_exact (before xs ys : List Char) :
    cutFrom before (byteSize xs) (xs ++ ys) = (xs.reverse ++ before, ys) := by
  induction xs generalizing before with
  | nil =>
    cases ys with
    | nil => rfl
    | cons c ys =>
      have large : ¬ c.utf8Size ≤ 0 := by have := c.utf8Size_pos; omega
      simp [cutFrom, large]
  | cons c xs ih =>
    have fits : c.utf8Size ≤ c.utf8Size + byteSize xs := Nat.le_add_right ..
    have left : c.utf8Size + byteSize xs - c.utf8Size = byteSize xs := by omega
    simp [cutFrom, fits, left, ih]

/-- A cut at the end of a part of a text gives back that part. -/
theorem cut_exact (xs ys : List Char) : cut (byteSize xs) (xs ++ ys) = (xs.reverse, ys) := by
  simpa [cut] using cutFrom_exact [] xs ys

/-- A slice is what stands at that place of the text and has that size. -/
theorem slice?_eq_some_iff {start size : Nat} {cs inside : List Char} :
    slice? start size cs = some inside ↔
      ∃ before after, cs = before ++ (inside ++ after) ∧ byteSize before = start ∧
        byteSize inside = size := by
  constructor
  · intro h
    simp only [slice?] at h
    split at h
    · next sizes =>
      cases h
      refine ⟨(cut start cs).1.reverse, (cut size (cut start cs).2).2, ?_, ?_, ?_⟩
      · rw [cut_append, cut_append]
      · simpa using sizes.1
      · simpa using sizes.2
    · cases h
  · rintro ⟨before, after, rfl, rfl, rfl⟩
    simp [slice?, cut_exact]

end Text

end StackCompiler
