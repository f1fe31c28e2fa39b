import Mathlib
import StackCompiler.Symbol

/-!
# Reserved words

The words that the assembler takes for a register or for an operand keyword, as a language of their
own: some words are listed, the others are a stem and the numeral of a number (`Symbol.IsWord`).

The main statements are these.
* A run of characters is a canonical numeral exactly if it is how its number is printed
  (`Decimal.canonical?_eq_some`).
* A family of registers has the names that are its stem, one of its numbers and at most one of its
  letters (`Symbol.Family.has_iff`).
* A name is reserved exactly if it is one of these words in lower case (`Symbol.isReserved_iff`).
-/

namespace StackCompiler

/-! ## 1. Canonical numerals -/

namespace Decimal

/-- A digit is how its value is printed. -/
theorem digitChar_digitValue {d : Char} (digit : d.isDigit) :
    digitValue d < 10 ∧ Nat.digitChar (digitValue d) = d := by
  have bounds : 48 ≤ d.toNat ∧ d.toNat ≤ 57 := Char.isDigit_iff_toNat.mp digit
  have small : digitValue d < 10 := by
    show d.toNat - 48 < 10
    omega
  refine ⟨small, Char.toNat_inj.mp ?_⟩
  rw [Nat.toNat_digitChar_of_lt_ten small]
  show 48 + (d.toNat - 48) = d.toNat
  omega

theorem value_append_singleton (ds : List Char) (d : Char) :
    value (ds ++ [d]) = 10 * value ds + digitValue d := by
  unfold value
  rw [List.foldl_append]
  rfl

/-- A number is what its numeral writes. -/
theorem value_toDigits (n : Nat) : value (Nat.toDigits 10 n) = n :=
  Nat.ofDigitChars_ten_toDigits

/-- Digits that do not begin with a zero are the numeral of the number they write. -/
theorem toDigits_value {c : Char} {rest : List Char} (digits : ∀ d ∈ c :: rest, d.isDigit)
    (first : c ≠ '0') :
    Nat.toDigits 10 (value (c :: rest)) = c :: rest ∧ 0 < value (c :: rest) := by
  -- numerals grow at their end
  induction rest using List.reverseRecOn with
  | nil =>
    obtain ⟨small, printed⟩ := digitChar_digitValue (digits c List.mem_cons_self)
    have single : value [c] = digitValue c := by simp [value]
    rw [single, Nat.toDigits_of_lt_base small, printed]
    refine ⟨rfl, Nat.pos_of_ne_zero fun zero => first ?_⟩
    rw [← printed, zero]
    rfl
  | append_singleton ds d ih =>
    obtain ⟨small, printed⟩ := digitChar_digitValue (digits d (by simp))
    obtain ⟨earlier, pos⟩ := ih fun x hx => digits x (by
      rw [← List.cons_append]
      exact List.mem_append_left _ hx)
    rw [← List.cons_append, value_append_singleton]
    refine ⟨?_, Nat.add_pos_left (Nat.mul_pos (by decide) pos) _⟩
    rw [← Nat.toDigits_append_toDigits (by decide) pos small, earlier,
      Nat.toDigits_of_lt_base small, printed]

/-- The numeral of a positive number does not begin with a zero. -/
theorem exists_toDigits_eq_cons {n : Nat} (pos : 0 < n) :
    ∃ c rest, Nat.toDigits 10 n = c :: rest ∧ c ≠ '0' := by
  induction n using Nat.strongRecOn with
  | ind n ih =>
    rcases Nat.lt_or_ge n 10 with small | large
    · refine ⟨_, [], Nat.toDigits_of_lt_base small, fun zero => ?_⟩
      exact (Nat.ne_of_gt pos) (Nat.digitChar_eq_zero.mp zero)
    · obtain ⟨c, rest, printed, first⟩ :=
        ih (n / 10) (Nat.div_lt_self pos (by decide)) (Nat.div_pos large (by decide))
      rw [Nat.toDigits_of_base_le (by decide) large, printed]
      exact ⟨c, _, rfl, first⟩

theorem isCanonical_cons {c : Char} (first : c ≠ '0') (rest : List Char) :
    isCanonical (c :: rest) = (c :: rest).all Char.isDigit := by
  unfold isCanonical
  split
  · next h => cases h
  · next h =>
    cases h
    exact absurd rfl first
  · rfl

theorem isCanonical_toDigits (n : Nat) : isCanonical (Nat.toDigits 10 n) = true := by
  rcases Nat.eq_zero_or_pos n with rfl | pos
  · rfl
  · obtain ⟨c, rest, printed, first⟩ := exists_toDigits_eq_cons pos
    rw [printed, isCanonical_cons first, ← printed, List.all_eq_true]
    exact fun d hd => Nat.isDigit_of_mem_toDigits (by decide) (by decide) hd

/-- A run of characters is a canonical numeral exactly if it is how its number is printed. -/
theorem canonical?_eq_some {cs : List Char} {n : Nat} :
    canonical? cs = some n ↔ cs = Nat.toDigits 10 n := by
  unfold canonical?
  constructor
  · intro h
    split at h
    · next canonical =>
      cases h
      cases cs with
      | nil => cases canonical
      | cons c rest =>
        by_cases zero : c = '0'
        · subst zero
          rw [List.isEmpty_iff.mp canonical]
          rfl
        · rw [isCanonical_cons zero, List.all_eq_true] at canonical
          exact (toDigits_value canonical zero).1.symm
    · cases h
  · rintro rfl
    rw [if_pos (isCanonical_toDigits n), value_toDigits]

end Decimal

/-! ## 2. Families of registers -/

namespace Symbol

/-- At most one of the characters `sizes`. -/
def IsSize (sizes size : List Char) : Prop :=
  size = [] ∨ ∃ c ∈ sizes, size = [c]

theorem exists_dropSize (sizes cs : List Char) :
    ∃ size, IsSize sizes size ∧ cs = dropSize sizes cs ++ size := by
  unfold dropSize
  split
  · next c last =>
    obtain ⟨front, rfl⟩ := List.getLast?_eq_some_iff.mp last
    split
    · next mem =>
      rw [List.dropLast_concat]
      exact ⟨[c], .inr ⟨c, List.contains_iff_mem.mp mem, rfl⟩, rfl⟩
    · exact ⟨[], .inl rfl, (List.append_nil _).symm⟩
  · exact ⟨[], .inl rfl, (List.append_nil _).symm⟩

/-- Behind a numeral a size is told from the digits. -/
theorem dropSize_append {sizes size : List Char} (letters : ∀ c ∈ sizes, c.isDigit = false)
    (h : IsSize sizes size) (n : Nat) :
    dropSize sizes (Nat.toDigits 10 n ++ size) = Nat.toDigits 10 n := by
  rcases h with rfl | ⟨c, mem, rfl⟩
  · obtain ⟨other, isSize, parts⟩ := exists_dropSize sizes (Nat.toDigits 10 n)
    rw [List.append_nil]
    rcases isSize with rfl | ⟨c, mem, rfl⟩
    · rw [List.append_nil] at parts
      exact parts.symm
    · have last : c ∈ Nat.toDigits 10 n := by
        rw [parts]
        exact List.mem_append_right _ List.mem_cons_self
      have digit : c.isDigit := Nat.isDigit_of_mem_toDigits (by decide) (by decide) last
      rw [letters c mem] at digit
      cases digit
  · unfold dropSize
    rw [List.getLast?_concat]
    simp [mem]

/-- A family has the names that are its stem, the numeral of one of its numbers, and at most one
of its letters. -/
theorem Family.has_iff {f : Family} (letters : ∀ c ∈ f.sizes, c.isDigit = false)
    {name : List Char} :
    f.has name = true ↔ ∃ n size, (f.first ≤ n ∧ n ≤ f.last) ∧ IsSize f.sizes size ∧
      name = f.stem.toList ++ (Nat.toDigits 10 n ++ size) := by
  unfold Family.has
  rw [Bool.and_eq_true, List.isPrefixOf_iff_prefix]
  constructor
  · rintro ⟨⟨rest, rfl⟩, number⟩
    rw [← String.length_toList, List.drop_left] at number
    split at number
    · next n canonical =>
      obtain ⟨size, isSize, parts⟩ := exists_dropSize f.sizes rest
      rw [Decimal.canonical?_eq_some.mp canonical] at parts
      exact ⟨n, size, by simpa using number, isSize, by rw [← parts]⟩
    · cases number
  · rintro ⟨n, size, range, isSize, rfl⟩
    refine ⟨List.prefix_append _ _, ?_⟩
    rw [← String.length_toList, List.drop_left, dropSize_append letters isSize,
      Decimal.canonical?_eq_some.mpr rfl]
    simpa using range

/-! ## 3. The words -/

/-- The stems of the numbered registers that have one size, and the number of the last one. -/
def numberedRegisters : List (String × Nat) :=
  [("xmm", 31), ("ymm", 31), ("zmm", 31), ("mm", 7), ("k", 7), ("cr", 15), ("dr", 15), ("st", 7),
   ("bnd", 3)]

/-- The words that the assembler takes for a register or for an operand keyword, in lower case. -/
inductive IsWord : String → Prop where
  | keyword {w : String} (mem : w ∈ operandKeywords) : IsWord w
  | fixed {w : String} (mem : w ∈ fixedRegisters) : IsWord w
  /-- A numbered general register, or a lower part of it. -/
  | general {n : Nat} {size : String} (first : 8 ≤ n) (last : n ≤ 15)
      (mem : size ∈ ["", "d", "w", "b", "l"]) : IsWord ("r" ++ toString n ++ size)
  | numbered {stem : String} {n last : Nat} (mem : (stem, last) ∈ numberedRegisters)
      (le : n ≤ last) : IsWord (stem ++ toString n)

theorem families_eq :
    families = ⟨"r", 8, 15, ['d', 'w', 'b', 'l']⟩ ::
      numberedRegisters.map fun register => ⟨register.1, 0, register.2, []⟩ :=
  rfl

theorem isSize_toList {size : String} :
    IsSize ['d', 'w', 'b', 'l'] size.toList ↔ size ∈ ["", "d", "w", "b", "l"] := by
  have singletons : ["", "d", "w", "b", "l"] = "" :: ['d', 'w', 'b', 'l'].map String.singleton :=
    rfl
  rw [singletons, List.mem_cons, List.mem_map]
  refine or_congr String.toList_eq_nil_iff (exists_congr fun c => and_congr_right fun _ => ?_)
  rw [← String.toList_inj, String.toList_singleton, eq_comm]

/-- The general registers are the names of the first family. -/
theorem general_iff {w : String} :
    Family.has ⟨"r", 8, 15, ['d', 'w', 'b', 'l']⟩ w.toList = true ↔
      ∃ n size, (8 ≤ n ∧ n ≤ 15) ∧ size ∈ ["", "d", "w", "b", "l"] ∧
        w = "r" ++ toString n ++ size := by
  have letters : ∀ c ∈ ['d', 'w', 'b', 'l'], c.isDigit = false := by simp
  rw [Family.has_iff letters]
  constructor
  · rintro ⟨n, size, range, isSize, parts⟩
    refine ⟨n, String.ofList size, range, ?_, ?_⟩
    · rw [← isSize_toList, String.toList_ofList]
      exact isSize
    · rw [← String.toList_inj, parts]
      simp
  · rintro ⟨n, size, range, mem, rfl⟩
    exact ⟨n, size.toList, range, isSize_toList.mpr mem, by simp⟩

theorem numbered_iff {stem w : String} {last : Nat} :
    Family.has ⟨stem, 0, last, []⟩ w.toList = true ↔ ∃ n ≤ last, w = stem ++ toString n := by
  rw [Family.has_iff (by simp)]
  constructor
  · rintro ⟨n, size, range, rfl | ⟨c, mem, -⟩, parts⟩
    · refine ⟨n, range.2, ?_⟩
      rw [← String.toList_inj, parts]
      simp
    · cases mem
  · rintro ⟨n, le, rfl⟩
    exact ⟨n, [], ⟨Nat.zero_le n, le⟩, .inl rfl, by simp⟩

theorem families_any_iff {w : String} :
    families.any (·.has w.toList) = true ↔
      (∃ n size, (8 ≤ n ∧ n ≤ 15) ∧ size ∈ ["", "d", "w", "b", "l"] ∧
          w = "r" ++ toString n ++ size) ∨
        ∃ stem last, (stem, last) ∈ numberedRegisters ∧ ∃ n ≤ last, w = stem ++ toString n := by
  rw [families_eq, List.any_cons, Bool.or_eq_true, general_iff, List.any_map, List.any_eq_true]
  refine or_congr_right ⟨?_, ?_⟩
  · rintro ⟨⟨stem, last⟩, mem, has⟩
    exact ⟨stem, last, mem, numbered_iff.mp has⟩
  · rintro ⟨stem, last, mem, numbered⟩
    exact ⟨(stem, last), mem, numbered_iff.mpr numbered⟩

theorem toList_toLower (name : String) : name.toLower.toList = fold name := by
  unfold fold String.toLower
  exact String.toList_map

/-- A name is reserved exactly if it is one of the words in lower case. -/
theorem isReserved_iff {name : String} : isReserved name = true ↔ IsWord name.toLower := by
  unfold isReserved
  simp only [← toList_toLower, String.ofList_toList, Bool.or_eq_true, List.contains_iff_mem,
    families_any_iff]
  constructor
  · rintro ((mem | mem) | ⟨n, size, ⟨first, last⟩, mem, word⟩ | ⟨stem, last, mem, n, le, word⟩)
    · exact .keyword mem
    · exact .fixed mem
    · rw [word]
      exact .general first last mem
    · rw [word]
      exact .numbered mem le
  · generalize name.toLower = w
    intro h
    cases h with
    | keyword mem => exact .inl (.inl mem)
    | fixed mem => exact .inl (.inr mem)
    | general first last mem => exact .inr (.inl ⟨_, _, ⟨first, last⟩, mem, rfl⟩)
    | numbered mem le => exact .inr (.inr ⟨_, _, mem, _, le, rfl⟩)

/-- The words begin with a letter. -/
theorem IsWord.exists_isLower {w : String} (h : IsWord w) :
    ∃ c cs, w.toList = c :: cs ∧ c.isLower := by
  have letters : ∀ x ∈ operandKeywords ++ fixedRegisters ++ numberedRegisters.map (·.1),
      x.toList.head?.any Char.isLower := by decide
  have begins : ∀ x ∈ operandKeywords ++ fixedRegisters ++ numberedRegisters.map (·.1),
      ∃ c cs, x.toList = c :: cs ∧ c.isLower := by
    intro x mem
    obtain ⟨c, head, lower⟩ := (Option.any_eq_true _ _).mp (letters x mem)
    obtain ⟨cs, parts⟩ := List.head?_eq_some_iff.mp head
    exact ⟨c, cs, parts, lower⟩
  cases h with
  | keyword mem => exact begins _ (List.mem_append_left _ (List.mem_append_left _ mem))
  | fixed mem => exact begins _ (List.mem_append_left _ (List.mem_append_right _ mem))
  | @general n size first last mem =>
    have parts : ("r" ++ toString n ++ size).toList =
        'r' :: (Nat.toDigits 10 n ++ size.toList) := by simp
    exact ⟨_, _, parts, rfl⟩
  | numbered mem le =>
    obtain ⟨c, cs, parts, lower⟩ :=
      begins _ (List.mem_append_right _ (List.mem_map_of_mem mem))
    exact ⟨c, _, by rw [String.toList_append, parts]; rfl, lower⟩

/-- A name that is one of the words in lower case begins with a letter. -/
theorem exists_isAlpha {name : String} (h : IsWord name.toLower) :
    ∃ c cs, name.toList = c :: cs ∧ c.isAlpha := by
  obtain ⟨d, ds, parts, lower⟩ := h.exists_isLower
  rw [toList_toLower, fold, List.map_eq_cons_iff] at parts
  obtain ⟨c, cs, first, rfl, -⟩ := parts
  refine ⟨c, cs, first, ?_⟩
  unfold Char.isAlpha
  rw [Bool.or_eq_true, or_iff_not_imp_left]
  intro upper
  rwa [Char.toLower_eq_of_not_isUpper upper] at lower

end Symbol

end StackCompiler
