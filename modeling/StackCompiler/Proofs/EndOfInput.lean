import Mathlib
import StackCompiler.Proofs.Excerpts
import StackCompiler.Proofs.Pointing

/-!
# Diagnostics at the end

A source that breaks off is refused at its end. The excerpt then shows the last line, and the caret
is behind all characters of this line. Carriage returns at the end of the line are not shown, but
the caret is behind them too.

The main statements are these.
* An excerpt at the end or past it shows the last line, and its caret counts what is not shown
  (`exists_excerpt_at_end`).
* So the caret of a diagnostic at the end stands right behind what is shown exactly if the source
  does not end in a carriage return (`compile_points_past_line`), and does not always
  (`compile_points_past_return`).
-/

namespace StackCompiler

/-! ## 1. Excerpts at the end -/

/-- At the end there is nothing behind a cut. -/
theorem Text.cut_of_le {offset : Nat} {cs : List Char} (past : Text.byteSize cs ≤ offset) :
    Text.cut offset cs = (cs.reverse, []) := by
  have whole := Text.cut_append offset cs
  cases behind : (Text.cut offset cs).2 with
  | nil =>
    rw [behind, List.append_nil] at whole
    exact Prod.ext (List.reverse_eq_iff.mp whole) behind
  | cons c after =>
    have large := Text.cut_maximal behind
    have size := congrArg Text.byteSize whole
    rw [behind, Text.byteSize_append, Text.byteSize_reverse, Text.byteSize_cons] at size
    omega

/-- An excerpt at the end shows the last line without the carriage returns at its end. As many
blanks stand before the caret as the line has characters, with the carriage returns. -/
theorem exists_excerpt_at_end {source : String} {loc : Nat} (past : source.utf8ByteSize ≤ loc)
    (message : String) :
    ∃ front shown returns, source.toList = front ++ (shown ++ List.replicate returns '\r') ∧
      AtLineStart front ∧ '\n' ∉ shown ∧ shown.getLast? ≠ some '\r' ∧
      (excerpt source loc message).toList = shown ++
        '\n' :: (List.replicate (shown.length + returns) ' ' ++ '^' :: ' ' :: message.toList) := by
  obtain ⟨front, line, after, whole, cut, starts, noFeed⟩ := exists_around source loc
  rw [← Text.byteSize_toList] at past
  rw [Text.cut_of_le past] at cut
  obtain ⟨-, rfl⟩ := Prod.mk.inj cut
  rw [List.append_nil] at whole
  obtain ⟨returns, parts, last⟩ := exists_trimReturns line
  refine ⟨front, trimReturns line, returns, by rw [← parts, whole], starts, ?_, last, ?_⟩
  · exact fun feed => noFeed (mem_trimReturns feed)
  · have columns : line.length = (trimReturns line).length + returns := by
      rw [← List.length_replicate (n := returns) (a := '\r'), ← List.length_append, ← parts]
    unfold excerpt
    rw [Text.cut_of_le past]
    dsimp only
    rw [String.toList_ofList, whole, (starts.spans noFeed).1, List.reverse_reverse,
      List.takeWhile_nil, List.append_nil, ← columns]

/-! ## 2. Diagnostics at the end -/

/-- Every message has one line. -/
theorem oneLine_of_compile {source : String} {d : Diagnostic}
    (refused : compile source = .error d) : OneLine d.message := by
  rcases refusal_cases refused with ⟨l, failed, rfl⟩ | ⟨tokens, fault, t, ht, scanned, rfl, quotes⟩
  · obtain ⟨-, before, rest, -, -, refuses⟩ := Token.scan_eq_error.mp failed
    exact refuses.oneLine
  · exact quotes.oneLine (Token.oneLine_of_scan scanned ht)

/-- A line ends in a carriage return exactly if one of them is not shown. -/
theorem getLast?_append_returns {front shown : List Char} (starts : AtLineStart front)
    (last : shown.getLast? ≠ some '\r') (returns : Nat) :
    (front ++ (shown ++ List.replicate returns '\r')).getLast? ≠ some '\r' ↔ returns = 0 := by
  cases returns with
  | zero =>
    refine iff_of_true ?_ rfl
    rw [List.replicate_zero, List.append_nil, List.getLast?_append]
    cases h : shown.getLast? with
    | none =>
      rcases starts with rfl | ⟨lines, rfl⟩
      · simp
      · simp
    | some c =>
      rw [h] at last
      exact last
  | succ returns =>
    refine iff_of_false (fun h => h ?_) (Nat.succ_ne_zero returns)
    rw [List.replicate_succ', ← List.append_assoc, ← List.append_assoc, List.getLast?_concat]

/-- The caret of a diagnostic at the end is behind the last line of the source. The diagnostic is
shown in two lines, of which the first is that line without the carriage returns at its end, and
the second has a blank for every character of that line, with these carriage returns. So the caret
is right behind what is shown exactly if the source does not end in a carriage return. -/
theorem compile_points_past_line {source : String} {d : Diagnostic}
    (refused : compile source = .error d) (atEnd : d.loc = source.utf8ByteSize) :
    ∃ front shown returns k, source.toList = front ++ (shown ++ List.replicate returns '\r') ∧
      AtLineStart front ∧
      (d.render source).toList =
        shown ++ '\n' :: (List.replicate k ' ' ++ '^' :: ' ' :: d.message.toList) ∧
      '\n' ∉ shown ∧ '\n' ∉ d.message.toList ∧ shown.getLast? ≠ some '\r' ∧
      k = shown.length + returns ∧
      (k = shown.length ↔ source.toList.getLast? ≠ some '\r') := by
  obtain ⟨front, shown, returns, whole, starts, noFeed, last, lines⟩ :=
    exists_excerpt_at_end (Nat.le_of_eq atEnd.symm) d.message
  refine ⟨front, shown, returns, _, whole, starts, lines, noFeed, oneLine_of_compile refused, last,
    rfl, ?_⟩
  rw [whole, getLast?_append_returns starts last]
  exact Nat.add_eq_left

/-- A carriage return on another line does not matter. -/
theorem compile_points_past_blank :
    compile "f()\x7b\r\n " = .error ⟨.syntactic, 7, "expected \"\x7d\", but got \"EOF\""⟩ ∧
      7 = "f()\x7b\r\n ".utf8ByteSize ∧
      ∃ (shown : List Char) (k : Nat),
        (Diagnostic.render ⟨.syntactic, 7, "expected \"\x7d\", but got \"EOF\""⟩
            "f()\x7b\r\n ").toList = shown ++
          '\n' :: (List.replicate k ' ' ++
            '^' :: ' ' :: "expected \"\x7d\", but got \"EOF\"".toList) ∧
        '\n' ∉ shown ∧ k = shown.length := by
  have read : Program.ofSource "f()\x7b\r\n " =
      .error ⟨.unexpected (.punctuator "\x7d") "EOF", 7⟩ := by cbv
  have refused : compile "f()\x7b\r\n " =
      .error ⟨.syntactic, 7, "expected \"\x7d\", but got \"EOF\""⟩ := by
    unfold compile
    rw [compileWith_of_not_read read]
    rfl
  obtain ⟨_, shown, _, k, -, -, lines, feed, -, -, -, right⟩ :=
    compile_points_past_line refused (by decide)
  exact ⟨refused, by decide, shown, k, lines, feed, right.mpr (by decide)⟩

/-- The carriage return at the end of the source is not shown, and yet it has a blank before the
caret, which stands two columns behind the last character shown. -/
theorem compile_points_past_return :
    compile "main()\x7breturn 1+\r" =
        .error ⟨.syntactic, 17, "expected a number, but got \"EOF\""⟩ ∧
      17 = "main()\x7breturn 1+\r".utf8ByteSize ∧
      Diagnostic.render ⟨.syntactic, 17, "expected a number, but got \"EOF\""⟩
          "main()\x7breturn 1+\r" =
        String.ofList ("main()\x7breturn 1+".toList ++ '\n' :: (List.replicate 17 ' ' ++
          '^' :: ' ' :: "expected a number, but got \"EOF\"".toList)) ∧
      17 ≠ "main()\x7breturn 1+".toList.length := by
  have read : Program.ofSource "main()\x7breturn 1+\r" =
      .error ⟨.unexpected .number "EOF", 17⟩ := by cbv
  refine ⟨?_, by decide, by cbv, by decide⟩
  unfold compile
  rw [compileWith_of_not_read read]
  rfl

end StackCompiler
