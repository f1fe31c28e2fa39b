import Mathlib
import StackCompiler.Proofs.Descent.Rules
import StackCompiler.Proofs.Parsing

/-!
# Reading goes forward and comes to an end

The rules of the grammar call each other in circles, and a loop in them goes on until a token ends
it. Calls of any rule come to an end nonetheless, at any position in any tokens that are slices of a
source: with an end marker behind them or without one, and with end markers between them.

Main statement: calls end with a later position or with a fault that is told of the token at
which they stop, they are at most twelve for each token passed and twelve more, every look that they
take is at a token or at the place behind the last one, and they end the way in which the tokens are
parsed (`run_ends`).
-/

namespace StackCompiler

/-- A token of any kind whose bytes are a slice of the source. -/
def Token.IsSlice (t : Token) (source : String) : Prop :=
  ∃ size cs, Text.slice? t.loc size source.toList = some cs ∧ t = .ofSlice source t.kind t.loc size

theorem Token.IsSlice.text_ne_none {t : Token} {source : String} (h : t.IsSlice source) :
    t.text ≠ none := by
  obtain ⟨size, cs, slice, same⟩ := h
  rw [same, Token.ofSlice, slice]
  exact Option.some_ne_none _

namespace Surface

/-! ## 1. What a rule reads -/

/-- The tokens that are left when a rule has been read. The trees that were read do not matter here,
and neither do those in front of the first one. -/
def Rule.read (rule : Rule) {bound : Nat} (ts : List Token) (notLonger : ts.length ≤ bound) :
    Except Stuck (List Token) :=
  match rule with
  | .program => (readOn [] ts (Nat.lt_succ_of_le notLonger)).map Reading.rest
  | .function => (readFunction ts).map Reading.rest
  | .params done => (readMoreParams done ts notLonger).map Reading.rest
  | .block => (readBlock [] ts notLonger).map Reading.rest
  | .stmt => (readStmt ts).map Reading.rest
  | .clause ending => (readClause ending ts).map Reading.rest
  | .exprStmt => (readExprStmt ts).map Reading.rest
  | .expr | .assignment => (readExpr ts).map Reading.rest
  | .level n => (readLevel n ts).map Reading.rest
  | .chain n => (readChain n (.num 0) ts (Nat.lt_succ_of_le notLonger)).map Reading.rest
  | .primary => (readPrimary ts).map Reading.rest
  | .args => (readArgs ts).map Reading.rest
  | .moreArgs => (readMoreArgs [] ts notLonger).map Reading.rest

/-- A loop that may end before it was entered. Any other rule has to pass a token. -/
def Rule.MayBeEmpty : Rule → Prop
  | .program | .chain _ => True
  | _ => False

/-- Every rule has a reader, which leaves fewer tokens unless the rule may be empty. -/
theorem Rule.exists_reads (rule : Rule) (ts : List Token) :
    ∃ (α : Type) (bound : Nat) (o : Outcome α bound), rule.Reads ts o ∧
      rule.read ts (Nat.le_refl _) = o.map Reading.rest ∧
      (¬ rule.MayBeEmpty → bound = ts.length) := by
  cases rule with
  | program => exact ⟨_, _, _, .program, rfl, fun never => absurd trivial never⟩
  | chain => exact ⟨_, _, _, .chain, rfl, fun never => absurd trivial never⟩
  | function => exact ⟨_, _, _, .function, rfl, fun _ => rfl⟩
  | params => exact ⟨_, _, _, .params, rfl, fun _ => rfl⟩
  | block => exact ⟨_, _, _, .block, rfl, fun _ => rfl⟩
  | stmt => exact ⟨_, _, _, .stmt, rfl, fun _ => rfl⟩
  | clause => exact ⟨_, _, _, .clause, rfl, fun _ => rfl⟩
  | exprStmt => exact ⟨_, _, _, .exprStmt, rfl, fun _ => rfl⟩
  | expr => exact ⟨_, _, _, .expr, rfl, fun _ => rfl⟩
  | assignment => exact ⟨_, _, _, .assignment, rfl, fun _ => rfl⟩
  | level => exact ⟨_, _, _, .level, rfl, fun _ => rfl⟩
  | primary => exact ⟨_, _, _, .primary, rfl, fun _ => rfl⟩
  | args => exact ⟨_, _, _, .args, rfl, fun _ => rfl⟩
  | moreArgs => exact ⟨_, _, _, .moreArgs, rfl, fun _ => rfl⟩

theorem Rule.neg_one_le_spare (rule : Rule) : -1 ≤ rule.spare := by
  cases rule with
  | level n =>
    have small : (n : Nat) < 5 := n.isLt
    show -1 ≤ 10 - 2 * (n : Int)
    omega
  | _ => simp [spare]

/-! ## 2. Calls of a rule -/

/-- `Halts tokens rule pos out made`: the calls of a rule from `pos` on end with `out`, which is
what its reader comes to, and they leave `made` behind. They look at nothing in front of `pos`, and
at nothing behind the position where they end.

* `reached`: tokens are passed, at least one of them unless the rule may be empty, and none of them
  is an end marker.
* `stopped`: there is a fault, and it is told of the token at which the calls stop. -/
inductive Halts (tokens : List Token) (rule : Rule) (pos : Nat) : Except Stop Nat → Trace → Prop
  | reached {q : Nat} {made : Trace} :
      rule.read (tokens.drop pos) (Nat.le_refl _) = .ok (tokens.drop q) →
      (¬ rule.MayBeEmpty → pos < q) → Passes tokens pos q → made.Within pos q →
      made.calls ≤ 12 * (q - pos) + 1 → Halts tokens rule pos (.ok q) made
  | stopped {s : Stop} {made : Trace} :
      rule.read (tokens.drop pos) (Nat.le_refl _) = .error (s.stuck tokens) →
      Passes tokens pos s.pos → s.Told tokens → made.Within pos s.pos →
      made.calls ≤ 12 * (s.pos - pos + 1) → Halts tokens rule pos (.error s) made

section Calls

variable {tokens : List Token} {pos budget : Nat}

theorem run_halts (rule : Rule) (whole : ∀ t ∈ tokens, t.text ≠ none) (inside : pos ≤ tokens.length)
    (enough : 12 * (tokens.length - pos + 1) ≤ budget) :
    ∃ out made, (run tokens budget rule pos).run.run ⟨0, []⟩ = some (out, made) ∧
      Halts tokens rule pos out made := by
  obtain ⟨_, _, o, reads, same, fewer⟩ := rule.exists_reads (tokens.drop pos)
  have low := rule.rank_lt
  have deep : Suffices tokens budget rule.rank pos := by
    unfold Suffices
    omega
  obtain ⟨out, made, run, ends⟩ := run_follows whole budget inside deep reads ⟨0, []⟩
  have all : (⟨0, []⟩ : Trace).then made = made := by
    simp [Trace.then]
  refine ⟨out, made, by rw [run, all], ?_⟩
  cases ends with
  | reached yields passes within few =>
    obtain ⟨lt, rfl⟩ := yields
    have le := passes.le
    have spare := rule.neg_one_le_spare
    refine .reached same (fun never => ?_) passes within (by omega)
    rw [fewer never] at lt
    exact lt_of_length_drop lt
  | stopped fails passes told within few =>
    cases fails
    exact .stopped same passes told within (by omega)

end Calls

/-! ## 3. Looking at a position -/

/-- `Looks tokens i`: a look at the position `i` is answered.

* `token`: a token stands there, and it has its text.
* `ending`: it is the place behind the last token, and every question is answered as at the end. -/
inductive Looks (tokens : List Token) (i : Nat) : Prop
  | token {t : Token} {text : String} :
      tokens[i]? = some t → t.text = some text → Looks tokens i
  | ending :
      i = tokens.length → isEnd tokens[i]? = true → Token.describe tokens[i]? = some "EOF" →
      named? tokens[i]? = none → (∀ p, stands p tokens[i]? = false) → Looks tokens i

theorem looks {tokens : List Token} (whole : ∀ t ∈ tokens, t.text ≠ none) {i : Nat}
    (inside : i ≤ tokens.length) : Looks tokens i := by
  cases at_i : tokens[i]? with
  | some t =>
    obtain ⟨text, spelled⟩ := Option.ne_none_iff_exists'.mp (whole t (List.mem_of_getElem? at_i))
    exact .token at_i spelled
  | none =>
    have behind : tokens.length ≤ i := List.getElem?_eq_none_iff.mp at_i
    refine .ending (Nat.le_antisymm inside behind) ?_ ?_ ?_ fun p => ?_
    · rw [at_i, isEnd, Option.all_none]
    · rw [at_i, Token.describe]
    · rw [at_i, named?, Option.bind_none]
    · rw [at_i, stands, Option.any_none]

/-- Wherever calls of a rule end, they have looked at tokens or at the place behind the last one. -/
theorem Halts.looks {tokens : List Token} {rule : Rule} {pos : Nat} {out : Except Stop Nat}
    {made : Trace} (h : Halts tokens rule pos out made) (whole : ∀ t ∈ tokens, t.text ≠ none) :
    ∀ i ∈ made.looks, Looks tokens i := by
  intro i hi
  cases h with
  | reached _ _ passes within => exact Surface.looks whole ((within i hi).2.trans passes.inside)
  | stopped _ passes _ within => exact Surface.looks whole ((within i hi).2.trans passes.inside)

/-! ## 4. Parsing -/

/-- Functions are read up to the end. -/
theorem readFunctions_of_yields {bound : Nat} {done fs : List Function} {ts rest : List Token}
    {lt : ts.length < bound} (yields : (readOn done ts lt).Yields fs rest) :
    readFunctions done ts = ⟨fs, none⟩ ∧ atEnd rest = true := by
  rw [readOn] at yields
  rw [readFunctions]
  by_cases ends : atEnd ts
  · rw [if_pos ends] at yields ⊢
    obtain ⟨_, same⟩ := yields
    cases same
    exact ⟨rfl, ends⟩
  · rw [if_neg ends] at yields ⊢
    cases first : readFunction ts with
    | ok r =>
      obtain ⟨f, rest, shorter⟩ := r
      rw [first] at yields
      exact readFunctions_of_yields yields
    | error stuck =>
      rw [first] at yields
      obtain ⟨_, same⟩ := yields
      cases same
termination_by ts.length

/-- Functions are read up to the one that cannot be read. -/
theorem halt_of_fails {bound : Nat} {done : List Function} {ts : List Token} {stuck : Stuck}
    {lt : ts.length < bound} (fails : (readOn done ts lt).Fails stuck) :
    ∃ start, (readFunctions done ts).halt = some (start, stuck) := by
  rw [readOn] at fails
  rw [readFunctions]
  by_cases ends : atEnd ts
  · rw [if_pos ends] at fails
    cases fails
  · rw [if_neg ends] at fails ⊢
    cases first : readFunction ts with
    | ok r =>
      obtain ⟨f, rest, shorter⟩ := r
      rw [first] at fails
      exact halt_of_fails fails
    | error stuck =>
      rw [first] at fails
      cases fails
      exact ⟨ts, rfl⟩
termination_by ts.length

/-- A fault that is told of a token is a syntax error other than a torn token. -/
theorem Stop.Told.syntactic {tokens : List Token} {s : Stop} (h : s.Told tokens) :
    s.fault.stage = .syntactic ∧ s.fault ≠ .tornToken := by
  cases h <;> exact ⟨rfl, nofun⟩

/-- A place among tokens is that of one of them, or the end of the source. -/
theorem startOf_drop (size : Nat) (tokens : List Token) (i : Nat) :
    startOf size (tokens.drop i) = size ∨ ∃ t ∈ tokens, startOf size (tokens.drop i) = t.loc := by
  cases split : tokens.drop i with
  | nil => exact .inl rfl
  | cons t rest =>
    have here : t ∈ tokens.drop i := by
      rw [split]
      exact List.mem_cons_self
    exact .inr ⟨t, List.mem_of_mem_drop here, rfl⟩

/-- `Parses source tokens out`: tokens are parsed in the way in which the calls end.

* `accepted`: the calls have come to an end marker, or behind all tokens.
* `refused`: there is a syntax error at the place where the calls stop. That is the place of one of
  the tokens or the end of the source. -/
inductive Parses (source : String) (tokens : List Token) : Except Stop Nat → Prop
  | accepted {q : Nat} {p : Program} :
      Program.ofTokens tokens source.utf8ByteSize = .ok p → isEnd tokens[q]? = true →
      Parses source tokens (.ok q)
  | refused {s : Stop} {l : Located} :
      Program.ofTokens tokens source.utf8ByteSize = .error l →
      (s.stuck tokens).located source.utf8ByteSize = l →
      l.report.stage = .syntactic → l.fault ≠ .tornToken →
      (l.loc = source.utf8ByteSize ∨ ∃ t ∈ tokens, l.loc = t.loc) →
      Parses source tokens (.error s)

theorem Halts.parses {tokens : List Token} {out : Except Stop Nat} {made : Trace}
    (h : Halts tokens .program 0 out made) (source : String) : Parses source tokens out := by
  cases h with
  | @reached q _ read =>
    rw [List.drop_zero, Rule.read] at read
    cases outcome : readOn [] tokens (Nat.lt_succ_self _) with
    | error stuck =>
      rw [outcome] at read
      cases read
    | ok r =>
      obtain ⟨fs, rest, lt⟩ := r
      rw [outcome] at read
      cases read
      obtain ⟨all, ends⟩ := readFunctions_of_yields ⟨lt, outcome⟩
      rw [← isEnd_eq] at ends
      exact .accepted (Program.ofTokens_eq_ok_iff.mpr ⟨congrArg Progress.halt all, rfl⟩) ends
  | @stopped s _ read _ told =>
    rw [List.drop_zero, Rule.read] at read
    cases outcome : readOn [] tokens (Nat.lt_succ_self _) with
    | ok r =>
      rw [outcome] at read
      cases read
    | error stuck =>
      rw [outcome] at read
      cases read
      obtain ⟨start, halt⟩ := halt_of_fails outcome
      obtain ⟨syntactic, whole⟩ := told.syntactic
      exact .refused (Program.ofTokens_eq_error.mpr ⟨start, _, halt, rfl⟩) rfl syntactic whole
        (startOf_drop _ tokens s.pos)

/-- Calls of a rule at a position come to an end, where the tokens are slices of a source. It is
enough to let calls nest to a depth of twelve for each token that is left and twelve more, and no
more calls than that are made.

* Wherever a rule is called, its calls end in one of the two ways of `Halts`, and every look that
  was taken on the way is answered, also one behind all tokens.
* A program is parsed in the way in which the calls from the first token on end. -/
theorem run_ends {source : String} {tokens : List Token}
    (slices : ∀ t ∈ tokens, t.IsSlice source) :
    (∀ rule pos budget, pos ≤ tokens.length → 12 * (tokens.length - pos + 1) ≤ budget →
        ∃ out made, (run tokens budget rule pos).run.run ⟨0, []⟩ = some (out, made) ∧
          Halts tokens rule pos out made ∧ ∀ i ∈ made.looks, Looks tokens i) ∧
      ∀ budget, 12 * (tokens.length + 1) ≤ budget →
        ∃ out made, (run tokens budget .program 0).run.run ⟨0, []⟩ = some (out, made) ∧
          Parses source tokens out := by
  have whole : ∀ t ∈ tokens, t.text ≠ none := fun t ht => (slices t ht).text_ne_none
  refine ⟨fun rule pos budget inside enough => ?_, fun budget enough => ?_⟩
  · obtain ⟨out, made, run, halts⟩ := run_halts rule whole inside enough
    exact ⟨out, made, run, halts, halts.looks whole⟩
  · obtain ⟨out, made, run, halts⟩ := run_halts .program whole (Nat.zero_le _) enough
    exact ⟨out, made, run, halts.parses source⟩

/-- The kinds, the places and the sizes of the tokens of a function, with an end marker before the
brace that closes it. -/
def pieces : List (TokenKind × Nat × Nat) :=
  [(.ident, 0, 1), (.punctuator, 1, 1), (.punctuator, 2, 1), (.punctuator, 3, 1), (.eof, 4, 0),
    (.punctuator, 4, 1)]

/-- The tokens that they are in a source. -/
def interrupted : List Token :=
  pieces.map fun (kind, loc, size) => .ofSlice "f()\x7b\x7d" kind loc size

/-- What calls leave behind that come to the end marker. They look at it four times. -/
def interruption : Trace :=
  ⟨3, [4, 4, 4, 4, 3, 2, 1, 0, 0]⟩

/-- Calls do not go past an end marker that stands among the tokens. -/
theorem run_ends_at_inner_marker :
    (∀ t ∈ interrupted, t.IsSlice "f()\x7b\x7d") ∧
      (run interrupted 84 .program 0).run.run ⟨0, []⟩ =
        some (.error ⟨.unexpected (.punctuator "\x7d") "EOF", 4⟩, interruption) ∧
      Halts interrupted .program 0 (.error ⟨.unexpected (.punctuator "\x7d") "EOF", 4⟩)
        interruption ∧
      (∀ i ∈ interruption.looks, Looks interrupted i) ∧
      Program.ofTokens interrupted 5 = .error ⟨.unexpected (.punctuator "\x7d") "EOF", 4⟩ := by
  have inside : ∀ piece ∈ pieces,
      (Text.slice? piece.2.1 piece.2.2 "f()\x7b\x7d".toList).isSome := by decide
  have slices : ∀ t ∈ interrupted, t.IsSlice "f()\x7b\x7d" := by
    intro t ht
    obtain ⟨⟨kind, loc, size⟩, piece, rfl⟩ := List.mem_map.mp ht
    obtain ⟨cs, slice⟩ := Option.isSome_iff_exists.mp (inside _ piece)
    exact ⟨size, cs, slice, rfl⟩
  have stops : (run interrupted 84 .program 0).run.run ⟨0, []⟩ =
      some (.error ⟨.unexpected (.punctuator "\x7d") "EOF", 4⟩, interruption) := by
    rfl
  obtain ⟨ends, parsed⟩ := run_ends slices
  obtain ⟨_, _, same, halts, looked⟩ := ends .program 0 84 (Nat.zero_le _) (by decide)
  cases same.symm.trans stops
  obtain ⟨_, _, same, parses⟩ := parsed 84 (by decide)
  cases same.symm.trans stops
  cases parses with
  | refused read located =>
    exact ⟨slices, stops, halts, looked, read.trans (congrArg _ located.symm)⟩

end Surface

end StackCompiler
