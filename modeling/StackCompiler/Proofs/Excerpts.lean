import Mathlib
import StackCompiler.Proofs.Pointing

/-!
# Excerpts

A diagnostic is located at a byte, and its excerpt shows a line with a caret in a column. This file
compares excerpts with two other accounts of them.

* By characters, a source is split into lines at its line feeds. The place of a diagnostic is a line
  with a part of it in front (`IsLinePlace`).
* By bytes, the source is never split. The end of a character is searched for backwards from the
  offset (`Text.boundaryBack?`), the line feeds are searched for on both sides of it, and the line
  is the slice between them (`excerptByBytes?`).

Main statement: all three accounts agree, for every offset (`excerpt_exact`). So the backward search
ends, and no slice begins or ends inside a character.
-/

namespace StackCompiler

/-! ## 1. Boundaries -/

namespace Text

variable {cs : List Char} {offset p : Nat}

/-- The offset is not inside a character, and not past the end. -/
def IsBoundary (cs : List Char) (offset : Nat) : Prop :=
  ∃ before after, cs = before ++ after ∧ byteSize before = offset

theorem isBoundary_iff : IsBoundary cs offset ↔ byteSize (cut offset cs).1 = offset := by
  constructor
  · rintro ⟨before, after, rfl, rfl⟩
    rw [cut_exact, byteSize_reverse]
  · intro exact
    refine ⟨(cut offset cs).1.reverse, (cut offset cs).2, (cut_append offset cs).symm, ?_⟩
    rw [byteSize_reverse, exact]

instance : Decidable (IsBoundary cs offset) :=
  decidable_of_iff' _ isBoundary_iff

theorem isBoundary_byteSize (before after : List Char) :
    IsBoundary (before ++ after) (byteSize before) :=
  ⟨before, after, rfl, rfl⟩

theorem IsBoundary.le_byteSize (h : IsBoundary cs offset) : offset ≤ byteSize cs := by
  obtain ⟨before, after, rfl, rfl⟩ := h
  rw [byteSize_append]
  exact Nat.le_add_right _ _

/-- A cut is at the greatest boundary that is not above the offset. -/
theorem isGreatest_cut (offset : Nat) (cs : List Char) :
    IsGreatest {b | IsBoundary cs b ∧ b ≤ offset} (byteSize (cut offset cs).1) := by
  have whole := cut_append offset cs
  refine ⟨⟨?_, cut_byteSize_le offset cs⟩, ?_⟩
  · have here := isBoundary_byteSize (cut offset cs).1.reverse (cut offset cs).2
    rwa [whole, byteSize_reverse] at here
  · rintro b ⟨⟨before, after, split, rfl⟩, fits⟩
    rcases List.append_eq_append_iff.mp (split.symm.trans whole.symm) with
      ⟨more, longer, -⟩ | ⟨more, rfl, rest⟩
    · rw [← byteSize_reverse (cut offset cs).1, longer, byteSize_append]
      exact Nat.le_add_right _ _
    -- The first character behind the cut would not fit.
    · cases more with
      | nil => rw [List.append_nil, byteSize_reverse]
      | cons c more =>
        have large := cut_maximal rest
        rw [byteSize_append, byteSize_reverse, byteSize_cons] at fits
        omega

/-- Goes back from an offset to the first boundary. Below the start there is none. -/
def boundaryBack? (cs : List Char) : Nat → Option Nat
  | 0 => if IsBoundary cs 0 then some 0 else none
  | offset + 1 => if IsBoundary cs (offset + 1) then some (offset + 1) else boundaryBack? cs offset

/-- The search ends at the greatest boundary that is not above the offset. -/
theorem boundaryBack?_eq_some (h : IsGreatest {b | IsBoundary cs b ∧ b ≤ offset} p) :
    boundaryBack? cs offset = some p := by
  induction offset with
  | zero =>
    obtain rfl := Nat.le_zero.mp h.1.2
    exact if_pos h.1.1
  | succ offset ih =>
    rw [boundaryBack?]
    by_cases here : IsBoundary cs (offset + 1)
    · rw [if_pos here, Nat.le_antisymm h.1.2 (h.2 ⟨here, Nat.le_refl _⟩)]
    · rw [if_neg here]
      refine ih ⟨⟨h.1.1, Nat.le_of_lt_succ (Nat.lt_of_le_of_ne h.1.2 ?_)⟩, ?_⟩
      · rintro rfl
        exact here h.1.1
      · exact fun b hb => h.2 ⟨hb.1, Nat.le_succ_of_le hb.2⟩

/-- An offset past the end counts as the end. -/
theorem isBoundary_and_le_min (source : String) (loc b : Nat) :
    IsBoundary source.toList b ∧ b ≤ min loc source.utf8ByteSize ↔
      IsBoundary source.toList b ∧ b ≤ loc := by
  refine and_congr_right fun boundary => ?_
  have within := boundary.le_byteSize
  rw [byteSize_toList] at within
  rw [Nat.le_min, and_iff_left within]

end Text

/-! ## 2. Lines -/

section Lines

variable {α : Type} [BEq α] (a : α)

/-- There is one piece more than there are separators. -/
theorem length_splitOn (xs : List α) : (xs.splitOn a).length = xs.count a + 1 := by
  induction xs with
  | nil => rfl
  | cons x xs ih =>
    rw [List.splitOn_cons_eq_if_modifyHead, List.count_cons]
    split
    · rw [List.length_cons, ih]
    · rw [List.length_modifyHead, ih, Nat.add_zero]

/-- The first piece goes up to the first separator. -/
theorem exists_splitOn (xs : List α) :
    ∃ pieces, xs.splitOn a = xs.takeWhile (· != a) :: pieces := by
  induction xs with
  | nil => exact ⟨[], rfl⟩
  | cons x xs ih =>
    obtain ⟨pieces, parts⟩ := ih
    rw [List.splitOn_cons_eq_if_modifyHead]
    split
    · next same =>
      refine ⟨xs.splitOn a, ?_⟩
      rw [List.takeWhile_cons_of_neg (by rw [bne, same]; exact Bool.false_ne_true)]
    · next other =>
      refine ⟨pieces, ?_⟩
      have kept : (x != a) = true := by rw [bne, Bool.eq_false_iff.mpr other]; rfl
      rw [parts, List.modifyHead_cons]
      exact congrArg (· :: pieces) (List.takeWhile_cons_of_pos (p := (· != a)) kept).symm

variable [LawfulBEq α]

/-- With the separator put back behind every piece, one separator is added at the end. -/
theorem flatMap_splitOn (xs : List α) : (xs.splitOn a).flatMap (· ++ [a]) = xs ++ [a] := by
  induction xs with
  | nil => rfl
  | cons x xs ih =>
    obtain ⟨piece, pieces, parts⟩ := List.exists_cons_of_ne_nil (List.splitOn_ne_nil a xs)
    rw [List.splitOn_cons_eq_if_modifyHead]
    split
    · next same =>
      obtain rfl := beq_iff_eq.mp same
      rw [List.flatMap_cons, ih]
      rfl
    · rw [parts, List.flatMap_cons] at ih
      rw [parts, List.modifyHead_cons, List.flatMap_cons, List.cons_append, List.cons_append, ih,
        List.cons_append]

end Lines

/-- Nothing stands before, or a line feed does. -/
def AtLineStart (front : List Char) : Prop :=
  front = [] ∨ ∃ lines, front = lines ++ ['\n']

theorem atLineStart_dropWhile (cs : List Char) :
    AtLineStart (cs.dropWhile (· != '\n')).reverse := by
  cases rest : cs.dropWhile (· != '\n') with
  | nil => exact .inl rfl
  | cons c rest' =>
    have stops := List.head?_dropWhile_not (· != '\n') cs
    rw [rest] at stops
    obtain rfl : c = '\n' := by simpa using stops
    exact .inr ⟨rest'.reverse, List.reverse_cons⟩

/-- The lines before a line start are all there is before it, each with its line feed. -/
theorem AtLineStart.exists_lines {front : List Char} (h : AtLineStart front) (rest : List Char) :
    ∃ lines : List (List Char), (front ++ rest).splitOn '\n' = lines ++ rest.splitOn '\n' ∧
      lines.length = front.count '\n' ∧ front = lines.flatMap (· ++ ['\n']) := by
  rcases h with rfl | ⟨lines, rfl⟩
  · exact ⟨[], rfl, rfl, rfl⟩
  · refine ⟨lines.splitOn '\n', ?_, ?_, (flatMap_splitOn '\n' lines).symm⟩
    · rw [List.append_assoc]
      exact List.splitOn_append_cons_self ..
    · rw [length_splitOn, List.count_append, List.count_singleton_self]

theorem bne_of_noFeed {cs : List Char} (noFeed : '\n' ∉ cs) : ∀ c ∈ cs, (c != '\n') = true := by
  intro c hc
  rw [bne_iff_ne]
  rintro rfl
  exact noFeed hc

/-- The line that an offset is in, and what stands before the offset in it. -/
theorem AtLineStart.line {front indent : List Char} (h : AtLineStart front)
    (noFeed : '\n' ∉ indent) (after : List Char) :
    ((front ++ indent ++ after).splitOn '\n')[(front ++ indent).count '\n']? =
        some (indent ++ after.takeWhile (· != '\n')) ∧
      front ++ indent = (((front ++ indent ++ after).splitOn '\n').take
        ((front ++ indent).count '\n')).flatMap (· ++ ['\n']) ++ indent := by
  obtain ⟨lines, parts, count, same⟩ := h.exists_lines (indent ++ after)
  obtain ⟨others, first⟩ := exists_splitOn '\n' (indent ++ after)
  rw [List.takeWhile_append_of_pos (bne_of_noFeed noFeed)] at first
  rw [List.append_assoc, parts, first, List.count_append, List.count_eq_zero.mpr noFeed,
    Nat.add_zero, ← count]
  constructor
  · rw [List.getElem?_append_right (Nat.le_refl _), Nat.sub_self]
    rfl
  · rw [List.take_left, ← same]

/-! ## 3. Places in lines -/

/-- The place that a diagnostic at the byte `loc` is shown at. -/
structure IsLinePlace (source : String) (loc : Nat) (before line indent : List Char) : Prop where
  /-- The place is behind the beginning `before` of the source. -/
  begins : before <+: source.toList
  /-- No boundary is nearer to the offset, unless it is above the offset or past the end. -/
  nearest : IsGreatest {b | Text.IsBoundary source.toList b ∧ b ≤ min loc source.utf8ByteSize}
    (Text.byteSize before)
  /-- The lines are numbered from 0 on, so that of the place is numbered by the line feeds before
  the place. -/
  numbered : (source.toList.splitOn '\n')[before.count '\n']? = some line
  /-- The characters from the start of that line up to the place are `indent`. -/
  indented : before =
    ((source.toList.splitOn '\n').take (before.count '\n')).flatMap (· ++ ['\n']) ++ indent
  /-- The line begins with them. -/
  inside : indent <+: line

/-- A source around an offset: the lines before that of the offset, the two parts of this line, and
the rest. -/
theorem exists_around (source : String) (loc : Nat) :
    ∃ front indent after, source.toList = front ++ indent ++ after ∧
      Text.cut loc source.toList = ((front ++ indent).reverse, after) ∧ AtLineStart front ∧
      '\n' ∉ indent := by
  let before := (Text.cut loc source.toList).1
  let indent := (before.takeWhile (· != '\n')).reverse
  let front := (before.dropWhile (· != '\n')).reverse
  have parts : front ++ indent = before.reverse := by
    rw [← List.reverse_append, List.takeWhile_append_dropWhile]
  refine ⟨front, indent, (Text.cut loc source.toList).2, ?_, ?_, atLineStart_dropWhile before, ?_⟩
  · rw [parts, Text.cut_append]
  · rw [parts, List.reverse_reverse]
  · exact fun mem => not_mem_takeWhile _ (List.mem_reverse.mp mem)

/-- What is before a place, read backwards from the place to the line feed. -/
theorem AtLineStart.spans {front indent : List Char} (starts : AtLineStart front)
    (noFeed : '\n' ∉ indent) :
    (front ++ indent).reverse.takeWhile (· != '\n') = indent.reverse ∧
      (front ++ indent).reverse.dropWhile (· != '\n') = front.reverse := by
  have kept := bne_of_noFeed fun mem => noFeed (List.mem_reverse.mp mem)
  rw [List.reverse_append, List.takeWhile_append_of_pos kept, List.dropWhile_append_of_pos kept]
  rcases starts with rfl | ⟨lines, rfl⟩
  · exact ⟨List.append_nil _, rfl⟩
  · rw [List.reverse_append]
    exact ⟨List.append_nil _, rfl⟩

/-- The place before which `front` and `indent` stand is the nearest one to an offset. -/
theorem isGreatest_of_cut {source : String} {loc : Nat} {before after : List Char}
    (cut : Text.cut loc source.toList = (before.reverse, after)) :
    IsGreatest {b | Text.IsBoundary source.toList b ∧ b ≤ min loc source.utf8ByteSize}
      (Text.byteSize before) := by
  have greatest := Text.isGreatest_cut loc source.toList
  rw [cut, Text.byteSize_reverse] at greatest
  simpa only [Text.isBoundary_and_le_min] using greatest

/-- An offset is in a line of the source, and the excerpt shows this line. -/
theorem exists_isLinePlace (source : String) (loc : Nat) (message : String) :
    ∃ before line indent, IsLinePlace source loc before line indent ∧
      excerpt source loc message = String.ofList (trimReturns line ++
        '\n' :: (List.replicate indent.length ' ' ++ '^' :: ' ' :: message.toList)) := by
  obtain ⟨front, indent, after, whole, cut, starts, noFeed⟩ := exists_around source loc
  obtain ⟨numbered, indented⟩ := starts.line noFeed after
  rw [← whole] at numbered indented
  refine ⟨_, _, indent, ⟨?_, isGreatest_of_cut cut, numbered, indented, List.prefix_append ..⟩, ?_⟩
  · rw [whole]
    exact List.prefix_append _ _
  · unfold excerpt
    rw [cut]
    dsimp only
    rw [(starts.spans noFeed).1, List.reverse_reverse]

/-! ## 4. Excerpts by bytes -/

/-- The offset behind the last line feed, or 0 if there is none. -/
def lineStart (before : List Char) : Nat :=
  Text.byteSize (before.reverse.dropWhile (· != '\n'))

/-- The offset of the first line feed, or of the end if there is none. -/
def lineEnd (after : List Char) : Nat :=
  Text.byteSize (after.takeWhile (· != '\n'))

/-- The excerpt, made from slices of the source between byte offsets. There is none if the search
for a boundary fails, or if a slice begins or ends inside a character. -/
def excerptByBytes? (source : String) (loc : Nat) (message : String) : Option String := do
  let cs := source.toList
  let size := source.utf8ByteSize
  let place ← Text.boundaryBack? cs (min loc size)
  let before ← Text.slice? 0 place cs
  let after ← Text.slice? place (size - place) cs
  let start := lineStart before
  let stop := place + lineEnd after
  let line ← Text.slice? start (stop - start) cs
  let indent ← Text.slice? start (place - start) cs
  return String.ofList (trimReturns line ++
    '\n' :: (List.replicate indent.length ' ' ++ '^' :: ' ' :: message.toList))

theorem lineStart_eq {front indent : List Char} (starts : AtLineStart front)
    (noFeed : '\n' ∉ indent) : lineStart (front ++ indent) = Text.byteSize front := by
  unfold lineStart
  rw [(starts.spans noFeed).2, Text.byteSize_reverse]

/-- The search ends, and every slice is one of whole characters. -/
theorem excerptByBytes?_eq (source : String) (loc : Nat) (message : String) :
    excerptByBytes? source loc message = some (excerpt source loc message) := by
  obtain ⟨front, indent, after, whole, cut, starts, noFeed⟩ := exists_around source loc
  let right := after.takeWhile (· != '\n')
  let rest := after.dropWhile (· != '\n')
  have parts : after = right ++ rest := List.takeWhile_append_dropWhile.symm
  have size : source.utf8ByteSize = Text.byteSize (front ++ indent) + Text.byteSize after := by
    rw [← Text.byteSize_toList, whole, Text.byteSize_append]
  have place := Text.boundaryBack?_eq_some (isGreatest_of_cut cut)
  have before : Text.slice? 0 (Text.byteSize (front ++ indent)) source.toList =
      some (front ++ indent) :=
    Text.slice?_eq_some_iff.mpr ⟨[], after, whole, rfl, rfl⟩
  have behind : Text.slice? (Text.byteSize (front ++ indent))
      (source.utf8ByteSize - Text.byteSize (front ++ indent)) source.toList = some after :=
    Text.slice?_eq_some_iff.mpr ⟨front ++ indent, [], by rw [whole, List.append_nil], rfl, by omega⟩
  have line : Text.slice? (Text.byteSize front)
      (Text.byteSize (front ++ indent) + Text.byteSize right - Text.byteSize front)
      source.toList = some (indent ++ right) := by
    refine Text.slice?_eq_some_iff.mpr ⟨front, rest, ?_, rfl, ?_⟩
    · rw [whole, parts]
      simp only [List.append_assoc]
    · simp only [Text.byteSize_append]
      omega
  have left : Text.slice? (Text.byteSize front)
      (Text.byteSize (front ++ indent) - Text.byteSize front) source.toList = some indent := by
    refine Text.slice?_eq_some_iff.mpr ⟨front, after, ?_, rfl, ?_⟩
    · rw [whole, List.append_assoc]
    · rw [Text.byteSize_append, Nat.add_sub_cancel_left]
  unfold excerptByBytes? excerpt
  simp only [place, before, behind, Option.bind_eq_bind, Option.bind_some,
    lineStart_eq starts noFeed]
  unfold lineEnd
  rw [line, left, cut]
  dsimp only
  rw [(starts.spans noFeed).1, List.reverse_reverse]
  rfl

/-! ## 5. Exactness -/

/-- A line is what is shown of it and the carriage returns at its end. -/
theorem exists_trimReturns (line : List Char) :
    ∃ returns, line = trimReturns line ++ List.replicate returns '\r' ∧
      (trimReturns line).getLast? ≠ some '\r' := by
  let returns := line.reverse.takeWhile (· == '\r')
  have all : returns.reverse = List.replicate returns.length '\r' := by
    refine List.eq_replicate_iff.mpr ⟨List.length_reverse, fun c hc => ?_⟩
    exact beq_iff_eq.mp (List.mem_takeWhile_imp (p := (· == '\r')) (List.mem_reverse.mp hc))
  refine ⟨returns.length, ?_, ?_⟩
  · unfold trimReturns
    rw [← all, ← List.reverse_append, List.takeWhile_append_dropWhile, List.reverse_reverse]
  · unfold trimReturns
    rw [List.getLast?_reverse]
    intro first
    have stops := List.head?_dropWhile_not (· == '\r') line.reverse
    rw [first] at stops
    cases stops

/-- Excerpts are exact. For every source, every offset and every message the excerpt is about one
place in one line of the source.

* The first line of the excerpt is that line without the carriage returns at its end.
* Below it stand as many blanks as there are characters from the start of the line up to the place,
  and then the caret and the message.
* The search for the place ends, and the slices that the excerpt consists of are slices of whole
  characters. -/
theorem excerpt_exact (source : String) (loc : Nat) (message : String) :
    ∃ before line indent shown returns, IsLinePlace source loc before line indent ∧
      line = shown ++ List.replicate returns '\r' ∧ shown.getLast? ≠ some '\r' ∧
      (excerpt source loc message).toList =
        shown ++ '\n' :: (List.replicate indent.length ' ' ++ '^' :: ' ' :: message.toList) ∧
      Text.boundaryBack? source.toList (min loc source.utf8ByteSize) =
        some (Text.byteSize before) ∧
      excerptByBytes? source loc message = some (excerpt source loc message) := by
  obtain ⟨before, line, indent, place, shows⟩ := exists_isLinePlace source loc message
  obtain ⟨returns, parts, last⟩ := exists_trimReturns line
  refine ⟨before, line, indent, trimReturns line, returns, place, parts, last, ?_,
    Text.boundaryBack?_eq_some place.nearest, excerptByBytes?_eq source loc message⟩
  rw [shows, String.toList_ofList]

/-- The offset is inside the `é`, which is behind a carriage return, on the second line. -/
example : excerpt "a\n\ré\r\r\nb" 4 "m" = "\ré\n ^ m" := by
  cbv

end StackCompiler
