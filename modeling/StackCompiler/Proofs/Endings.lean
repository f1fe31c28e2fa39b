import Mathlib
import StackCompiler.Proofs.Prefixes

/-!
# End markers

A list of tokens made by hand may go on behind its end marker, or have none. The reader takes the
first marker for the end, whatever comes behind it, and without one it ends where the tokens do.

The main statements are these.
* Where reading stops, no end marker is used up (`Surface.noEnd_of_halt`).
* A change of tokens that are not looked at changes nothing (`Surface.Change.ofTokens_apply`).
* So neither do tokens behind the marker, nor a marker at the end of the source
  (`Program.ofTokens_ends_at_marker`).
-/

namespace StackCompiler

open Grammar (NoEnd)
open Surface (Change Stuck)

/-! ## 1. The tokens before the end -/

theorem Token.relocate_id (t : Token) : t.relocate id = t := rfl

theorem Token.map_relocate_id (ts : List Token) : ts.map (Token.relocate id) = ts :=
  List.map_id'' Token.relocate_id ts

/-- Tokens among which is no marker do not reach past one. -/
theorem Grammar.NoEnd.length_lt {used seen before rest : List Token} {e : Token}
    (noEnd : NoEnd used) (marker : e.kind = .eof) (split : before ++ e :: rest = used ++ seen) :
    rest.length < seen.length := by
  rcases List.append_eq_append_iff.mp split with ⟨more, rfl, same⟩ | ⟨more, rfl, rfl⟩
  · cases more with
    | nil =>
      rw [List.nil_append] at same
      rw [← same]
      exact Nat.lt_succ_self _
    | cons t more =>
      obtain ⟨rfl, -⟩ := List.cons.inj same
      exact absurd marker (noEnd e (List.mem_append_right _ List.mem_cons_self))
  · rw [List.length_append]
    exact Nat.lt_add_left _ (Nat.lt_succ_self _)

/-! ## 2. Where reading stops -/

namespace Surface

/-- What is used up before reading stops holds no end marker. -/
theorem noEnd_of_halt {done : List Function} {ts start : List Token} {stuck : Stuck}
    (h : (readFunctions done ts).halt = some (start, stuck)) :
    ∃ used, ts = used ++ stuck.rest ∧ NoEnd used := by
  obtain ⟨used, more, split, -, p, derivation, -⟩ := readFunctions_viable h
  exact ⟨used, split, fun t ht => derivation.noEnd t (List.mem_append_left _ ht)⟩

namespace Change

variable {c : Change} {size : Nat}

/-- A place that is seen stays where it is, if no token is moved and if an end marker that comes in
stands at the end. -/
theorem Sees.startOf_eq {ts : List Token} (h : c.Sees ts) (still : c.move = id)
    (last : Surface.startOf size c.tail = size) :
    Surface.startOf size (c.apply ts) = Surface.startOf size ts := by
  cases ts with
  | nil =>
    unfold apply
    rw [List.take_nil, List.map_nil, List.nil_append, last]
    rfl
  | cons t ts =>
    rw [h.apply_cons, still]
    rfl

/-- A change is not noticed if no token is moved, if it leaves alone what stands before the end,
and if every place up to which no end marker stands is seen. -/
theorem ofTokens_apply {ts : List Token} (still : c.move = id)
    (last : startOf size c.tail = size) (same : Token.beforeEnd (c.apply ts) = Token.beforeEnd ts)
    (sees : ∀ used seen, ts = used ++ seen → NoEnd used → c.Sees seen) :
    Program.ofTokens (c.apply ts) size = Program.ofTokens ts size := by
  cases read : Program.ofTokens ts size with
  | ok p =>
    have exact := Program.ofTokens_eq_ok.mp read
    rw [← same] at exact
    exact Program.ofTokens_eq_ok.mpr exact
  | error l =>
    obtain ⟨start, stuck, halt, rfl⟩ := Program.ofTokens_eq_error.mp read
    obtain ⟨used, split, noEnd⟩ := noEnd_of_halt halt
    have seen := sees used stuck.rest split noEnd
    refine Program.ofTokens_eq_error.mpr ⟨_, _, c.halt_readFunctions [] halt seen, ?_⟩
    unfold Stuck.located Change.stuck
    rw [seen.startOf_eq still last]

end Change

end Surface

/-! ## 3. Programs -/

namespace Program

/-- The first end marker ends a program, whatever stands in it or behind it. -/
theorem ofTokens_append_marker (before rest : List Token) {e : Token} (marker : e.kind = .eof)
    (size : Nat) :
    Program.ofTokens (before ++ e :: rest) size = Program.ofTokens (before ++ [e]) size := by
  let c : Change := ⟨id, rest.length, []⟩
  have apply : c.apply (before ++ e :: rest) = before ++ [e] := by
    have kept := Change.apply_append id (before ++ [e]) rest []
    rwa [List.append_assoc, Token.map_relocate_id, List.append_nil] at kept
  rw [← apply]
  refine (Change.ofTokens_apply rfl rfl ?_ fun used seen split noEnd => ?_).symm
  · have ends (after : List Token) : Surface.atEnd (e :: after) := beq_iff_eq.mpr marker
    rw [apply, Token.beforeEnd_append_end before (ends []),
      Token.beforeEnd_append_end before (ends rest)]
  · exact .inl (noEnd.length_lt marker split)

/-- Tokens without an end marker are read as if there were one at the end of the source. -/
theorem ofTokens_append_end (before : List Token) (source : String) :
    Program.ofTokens (before ++ [Token.endOf source]) source.utf8ByteSize =
      Program.ofTokens before source.utf8ByteSize := by
  let c : Change := ⟨id, 0, [Token.endOf source]⟩
  have apply : c.apply before = before ++ [Token.endOf source] := by
    have kept := Change.apply_append id before [] [Token.endOf source]
    rwa [List.append_nil, Token.map_relocate_id] at kept
  rw [← apply]
  refine Change.ofTokens_apply rfl rfl ?_ fun used seen split noEnd => .inr ⟨rfl, rfl⟩
  rw [apply, Token.beforeEnd_append_end before rfl]

/-- The reader does not look past an end marker, and a missing one is harmless. For all tokens of a
source, whether the scanner could have made them or not:

* an end marker makes the tokens in front of it the same program, or lets them be refused for the
  same fault at the same place, whatever comes behind the marker;
* so does an empty marker at the end of the source and none at all. -/
theorem ofTokens_ends_at_marker (source : String) (before rest : List Token) (loc : Nat)
    (text : Option String) :
    Program.ofTokens (before ++ [⟨.eof, loc, text⟩] ++ rest) source.utf8ByteSize =
        Program.ofTokens (before ++ [⟨.eof, loc, text⟩]) source.utf8ByteSize ∧
      Program.ofTokens before source.utf8ByteSize =
        Program.ofTokens (before ++ [⟨.eof, source.utf8ByteSize, some ""⟩])
          source.utf8ByteSize := by
  rw [List.append_assoc]
  exact ⟨ofTokens_append_marker before rest rfl _, (ofTokens_append_end before source).symm⟩

end Program

end StackCompiler
