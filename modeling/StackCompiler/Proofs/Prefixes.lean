import Mathlib
import StackCompiler.Proofs.Grammar.Locality
import StackCompiler.Proofs.Parsing

/-!
# Where syntax errors are reported

A source whose tokens are no program is refused at the first token with which no program goes on.
What stands before that token is the beginning of a program, and no program begins with what ends
in that token.

Main statement: the place and the message of a syntax error are a matter of the tokens up to the
one at which it is reported, and the tokens before that one are a beginning of some program
(`Program.refused_at_first_wrong_token`).
-/

namespace StackCompiler

open Grammar (NoEnd)
open Surface (Change Stuck IsProgram)

/-! ## 1. Tokens that look alike -/

/-- The kind, without the value of a number. -/
def TokenKind.bare : TokenKind → TokenKind
  | .num _ => .num none
  | kind => kind

namespace Token

/-- The kind and the text of a token. -/
def look (t : Token) : TokenKind × Option String :=
  (t.kind.bare, t.text)

/-- The tokens of the two lists have the same kinds and texts, one by one. -/
def Alike (ts us : List Token) : Prop :=
  ts.map look = us.map look

/-- A lexeme or an end marker. -/
def IsGenuine (t : Token) : Prop :=
  t.Spelled ∨ t.kind = .eof

theorem IsLexeme.value_eq {value value' : Option Int64} {text after after' : List Char}
    (h : IsLexeme (.num value) text after) (h' : IsLexeme (.num value') text after') :
    value = value' := by
  cases h with
  | number _ _ _ hvalue =>
    cases h' with
    | number _ _ _ hvalue' => rw [Int64.toInt_inj.mp (hvalue.trans hvalue'.symm)]

/-- The text of a number determines its value. -/
theorem IsGenuine.content_eq {t t' : Token} (h : t.IsGenuine) (h' : t'.IsGenuine)
    (same : t.look = t'.look) : t.content = t'.content := by
  obtain ⟨kind, loc, text⟩ := t
  obtain ⟨kind', loc', text'⟩ := t'
  obtain ⟨bare, rfl⟩ := Prod.mk.inj same
  refine Prod.ext ?_ rfl
  change kind = kind'
  cases kind <;> cases kind' <;> first | rfl | cases bare
  rcases h with ⟨cs, hcs, lexeme⟩ | hk
  · rcases h' with ⟨cs', hcs', lexeme'⟩ | hk'
    · obtain rfl := String.ofList_injective (Option.some.inj (hcs.symm.trans hcs'))
      rw [lexeme.value_eq lexeme']
    · cases hk'
  · cases hk

theorem Alike.contents {ts us : List Token} (h : Alike ts us) (hts : ∀ t ∈ ts, t.IsGenuine)
    (hus : ∀ u ∈ us, u.IsGenuine) : ts.map content = us.map content := by
  induction ts generalizing us with
  | nil =>
    cases us with
    | nil => rfl
    | cons u us => cases h
  | cons t ts ih =>
    cases us with
    | nil => cases h
    | cons u us =>
      obtain ⟨ht, hts⟩ := List.forall_mem_cons.mp hts
      obtain ⟨hu, hus⟩ := List.forall_mem_cons.mp hus
      obtain ⟨same, sames⟩ := List.cons.inj h
      rw [List.map_cons, List.map_cons, ht.content_eq hu same, ih sames hts hus]

/-- Where one of two such lists has the token `t`, the other one has a token like `t`. -/
theorem Alike.exists_split {ts us vs : List Token} {t : Token} (h : Alike (ts ++ t :: us) vs) :
    ∃ ts' t' us', vs = ts' ++ t' :: us' ∧ Alike (ts ++ [t]) (ts' ++ [t']) := by
  unfold Alike at h
  rw [List.map_append] at h
  obtain ⟨ts', rest, rfl, same, others⟩ := List.map_eq_append_iff.mp h.symm
  obtain ⟨t', us', rfl, here, -⟩ := List.map_eq_cons_iff.mp others
  refine ⟨ts', t', us', rfl, ?_⟩
  unfold Alike
  rw [List.map_append, List.map_append, same, List.map_singleton, List.map_singleton, here]

theorem Alike.of_contents {ts us : List Token} (h : ts.map content = us.map content) :
    Alike ts us := by
  have looks := congrArg (List.map fun c => (c.1.bare, c.2)) h
  rwa [List.map_map, List.map_map] at looks

/-- Tokens at places of their own can be moved to the places of other tokens. -/
theorem exists_relocate {ts us : List Token} (distinct : ts.Pairwise fun t t' => t.loc ≠ t'.loc)
    (same : ts.map content = us.map content) :
    ∃ g, ts.map (Token.relocate g) = us := by
  induction ts generalizing us with
  | nil =>
    cases us with
    | nil => exact ⟨id, rfl⟩
    | cons u us => cases same
  | cons t ts ih =>
    cases us with
    | nil => cases same
    | cons u us =>
      obtain ⟨here, distinct⟩ := List.pairwise_cons.mp distinct
      obtain ⟨first, others⟩ := List.cons.inj same
      obtain ⟨kind, text⟩ := Prod.mk.inj first
      obtain ⟨g, rfl⟩ := ih distinct others
      refine ⟨Function.update g t.loc u.loc, ?_⟩
      rw [List.map_cons]
      congr 1
      · unfold relocate
        rw [Function.update_self, kind, text]
      · refine List.map_congr_left fun t' ht' => ?_
        unfold relocate
        rw [Function.update_of_ne (here t' ht').symm]

/-! ## 2. Tokens of a source -/

section Scan

variable {source : String} {tokens : List Token}

/-- No two tokens start at one place. -/
theorem pairwise_ne_of_scan (h : scan source = .ok tokens) :
    tokens.Pairwise fun t t' => t.loc ≠ t'.loc := by
  obtain ⟨body, rfl, lexes⟩ := scan_eq_ok.mp h
  refine List.pairwise_append.mpr ⟨lexes.pairwise_loc.imp fun hlt => Nat.ne_of_lt hlt,
    List.pairwise_singleton _ _, fun t ht e he => ?_⟩
  -- A token has some bytes, so it starts before the end.
  rw [List.mem_singleton.mp he]
  have starts : t.loc < t.loc + t.size := Nat.lt_add_of_pos_right (lexes.nonempty t ht)
  exact Nat.ne_of_lt (Nat.lt_of_lt_of_le starts (lexes.within t ht))

theorem isGenuine_of_scan (h : scan source = .ok tokens) : ∀ t ∈ tokens, t.IsGenuine := by
  obtain ⟨body, rfl, lexes⟩ := scan_eq_ok.mp h
  refine List.forall_mem_append.mpr ⟨fun t ht => .inl (lexes.placed t ht).spelled, ?_⟩
  exact List.forall_mem_singleton.mpr (.inr rfl)

end Scan

end Token

/-! ## 3. Where reading stops -/

/-- A source is refused at the token at which reading its tokens stops. -/
theorem Program.ofSource_eq_error {source : String} {tokens : List Token} {l : Located}
    (scanned : Token.scan source = .ok tokens) :
    Program.ofSource source = .error l ↔
      ∃ start stuck, (Surface.readFunctions [] tokens).halt = some (start, stuck) ∧
        stuck.located source.utf8ByteSize = l := by
  have unfolded : Program.ofSource source = Program.ofTokens tokens source.utf8ByteSize := by
    unfold Program.ofSource
    rw [scanned]
    rfl
  rw [unfolded]
  exact Program.ofTokens_eq_error

/-- Lexemes that make up a program are, at other places, the tokens of a source. -/
theorem Surface.IsProgram.exists_source {ts : List Token} (h : IsProgram ts)
    (spelled : ∀ t ∈ ts, t.Spelled) :
    ∃ source body p, Token.scan source = .ok (body ++ [Token.endOf source]) ∧
      body.map Token.content = ts.map Token.content ∧ Program.ofSource source = .ok p := by
  obtain ⟨body, scanned, same⟩ := Token.scan_print spelled
  generalize String.ofList (Token.print ts) = source at scanned
  cases read : Program.ofSource source with
  | ok p => exact ⟨source, body, p, scanned, same, read⟩
  | error l =>
    -- Where reading these tokens stops, reading the tokens `ts` stops too.
    exfalso
    obtain ⟨start, stuck, halt, -⟩ := (Program.ofSource_eq_error scanned).mp read
    have distinct := (List.pairwise_append.mp (Token.pairwise_ne_of_scan scanned)).1
    obtain ⟨g, moved⟩ := Token.exists_relocate distinct same
    have stops := (Change.moving g).halt_readFunctions [] halt (Change.sees_moving g _)
    rw [Change.apply_moving, List.map_append, moved] at stops
    obtain ⟨_, program, distinct⟩ := h
    obtain ⟨_, program, distinct, nearest⟩ := program.exists_elsesNearest distinct
    obtain ⟨_, -, whole⟩ := program.read nearest distinct
    rw [whole _ rfl []] at stops
    cases stops

/-! ## 4. Syntax errors -/

/-- The first token at which a source is refused, with the tokens before it and those behind it. -/
theorem Program.exists_refused_token {source : String} {tokens : List Token} {l : Located}
    (scanned : Token.scan source = .ok tokens) (refused : Program.ofSource source = .error l) :
    ∃ before t after start more, tokens = before ++ t :: after ∧ l.loc = t.loc ∧
      (Surface.readFunctions [] tokens).halt = some (start, ⟨l.fault, t :: after⟩) ∧
      NoEnd before ∧ (∀ u ∈ more, u.Spelled) ∧ IsProgram (before ++ more) := by
  obtain ⟨start, stuck, halt, rfl⟩ := (Program.ofSource_eq_error scanned).mp refused
  obtain ⟨before, more, rfl, spelled, program⟩ := Surface.readFunctions_viable halt
  have noEnd : NoEnd before := by
    obtain ⟨_, derivation, -⟩ := program
    exact fun t ht => derivation.noEnd t (List.mem_append_left _ ht)
  obtain ⟨fault, rest⟩ := stuck
  cases rest with
  | nil =>
    -- The end marker is still there.
    obtain ⟨body, split, -⟩ := Token.scan_eq_ok.mp scanned
    have mem : Token.endOf source ∈ before ++ [] := by
      rw [split]
      simp
    rw [List.append_nil] at mem
    exact absurd rfl (noEnd _ mem)
  | cons t after =>
    exact ⟨before, t, after, start, more, rfl, rfl, halt, noEnd, spelled, program⟩

/-- What comes behind the token at which a source is refused makes no difference. -/
theorem Program.ofSource_of_alike {source source' : String} {t t' : Token}
    {before after before' after' start : List Token} {fault : Fault}
    (scanned : Token.scan source = .ok (before ++ t :: after))
    (scanned' : Token.scan source' = .ok (before' ++ t' :: after'))
    (halt : (Surface.readFunctions [] (before ++ t :: after)).halt =
      some (start, ⟨fault, t :: after⟩))
    (alike : Token.Alike (before ++ [t]) (before' ++ [t'])) :
    Program.ofSource source' = .error ⟨fault, t'.loc⟩ := by
  have whole : before ++ t :: after = (before ++ [t]) ++ after := by simp
  have whole' : before' ++ t' :: after' = (before' ++ [t']) ++ after' := by simp
  have distinct := Token.pairwise_ne_of_scan scanned
  have genuine := Token.isGenuine_of_scan scanned
  have genuine' := Token.isGenuine_of_scan scanned'
  rw [whole] at distinct genuine
  rw [whole'] at genuine'
  have same := alike.contents (List.forall_mem_append.mp genuine).1
    (List.forall_mem_append.mp genuine').1
  obtain ⟨g, moved⟩ := Token.exists_relocate (List.pairwise_append.mp distinct).1 same
  -- The tokens up to `t` are moved, and those behind it are exchanged.
  let c : Change := ⟨g, after.length, after'⟩
  have all : c.apply (before ++ t :: after) = before' ++ t' :: after' := by
    rw [whole, whole', ← moved]
    exact Change.apply_append g (before ++ [t]) after after'
  have rest : c.apply (t :: after) = t' :: after' := by
    rw [List.map_append] at moved
    obtain ⟨-, last⟩ := List.append_inj' moved rfl
    have kept := Change.apply_append g [t] after after'
    rwa [last] at kept
  have stops := c.halt_readFunctions [] halt (.inl (Nat.lt_succ_self _))
  rw [all] at stops
  refine (ofSource_eq_error scanned').mpr ⟨_, _, stops, ?_⟩
  unfold Change.stuck
  rw [rest]
  rfl

/-- Syntax errors have the correct-prefix property. A source that can be scanned but is refused is
refused at the start of exactly one of its tokens `t`, where the end marker counts as a token.

* Some program has the tokens before `t` at its beginning.
* Every source that begins with these tokens and one like `t` is refused for the same fault, at
  that token.
* If the tokens of the source without the end marker are the beginning of a program, as when that
  program is cut off between two tokens, then the source is refused at its end. -/
theorem Program.refused_at_first_wrong_token {source : String} {tokens : List Token} {l : Located}
    (scanned : Token.scan source = .ok tokens) (refused : Program.ofSource source = .error l) :
    ∃ before t after, tokens = before ++ t :: after ∧ l.loc = t.loc ∧
      (∀ u ∈ before ++ after, u.loc ≠ t.loc) ∧
      (∃ source' before' after' p, Token.scan source' = .ok (before' ++ after') ∧
        Token.Alike before before' ∧ Program.ofSource source' = .ok p) ∧
      (∀ source' before' t' after', Token.scan source' = .ok (before' ++ t' :: after') →
        Token.Alike (before ++ [t]) (before' ++ [t']) →
        Program.ofSource source' = .error ⟨l.fault, t'.loc⟩) ∧
      ∀ cut source' before' after' p, tokens = cut ++ [Token.endOf source] →
        Token.scan source' = .ok (before' ++ after') → Token.Alike cut before' →
        Program.ofSource source' = .ok p → l.loc = source.utf8ByteSize := by
  obtain ⟨before, t, after, start, more, rfl, here, halt, noEnd, spelled, program⟩ :=
    exists_refused_token scanned refused
  have distinct := Token.pairwise_ne_of_scan scanned
  refine ⟨before, t, after, rfl, here, ?_, ?_, ?_, ?_⟩
  · obtain ⟨-, behind, apart⟩ := List.pairwise_append.mp distinct
    refine List.forall_mem_append.mpr ⟨fun u hu => apart u hu t List.mem_cons_self, fun u hu => ?_⟩
    exact ((List.pairwise_cons.mp behind).1 u hu).symm
  · have genuine := Token.isGenuine_of_scan scanned
    have spelledBefore (u : Token) (hu : u ∈ before) : u.Spelled :=
      (genuine u (List.mem_append_left _ hu)).resolve_right (noEnd u hu)
    obtain ⟨source', body, p, scanned', same, read⟩ :=
      program.exists_source (List.forall_mem_append.mpr ⟨spelledBefore, spelled⟩)
    rw [List.map_append] at same
    obtain ⟨before', rest, rfl, same, -⟩ := List.map_eq_append_iff.mp same
    rw [List.append_assoc] at scanned'
    exact ⟨source', before', _, p, scanned', .of_contents same.symm, read⟩
  · intro source' before' t' after' scanned' alike
    exact ofSource_of_alike scanned scanned' halt alike
  · intro cut source' before' after' p split scanned' alike read
    obtain rfl | ⟨after, e, rfl⟩ := List.eq_nil_or_concat after
    · obtain ⟨-, last⟩ := List.append_inj' split rfl
      rw [here, (List.cons.inj last).1]
      rfl
    -- Otherwise the program begins with `t` too.
    · have split : before ++ t :: after ++ [e] = cut ++ [Token.endOf source] := by
        rw [← split, List.append_assoc, List.cons_append, List.concat_eq_append]
      obtain ⟨rfl, -⟩ := List.append_inj' split rfl
      obtain ⟨before', t', rest, rfl, found⟩ := alike.exists_split
      rw [List.append_assoc, List.cons_append] at scanned'
      rw [ofSource_of_alike scanned scanned' halt found] at read
      cases read

/-- The tokens of `f(x,x)\x7b\x7d`. -/
def Token.repeating : List Token :=
  [⟨.ident, 0, some "f"⟩, ⟨.punctuator, 1, some "("⟩, ⟨.ident, 2, some "x"⟩,
    ⟨.punctuator, 3, some ","⟩, ⟨.ident, 4, some "x"⟩, ⟨.punctuator, 5, some ")"⟩,
    ⟨.punctuator, 6, some "\x7b"⟩, ⟨.punctuator, 7, some "\x7d"⟩, ⟨.eof, 8, some ""⟩]

/-- A parameter is used up before it is found to repeat another one, and yet the source is refused
at that parameter. -/
theorem Program.refused_at_repeated_parameter :
    Token.scan "f(x,x)\x7b\x7d" = .ok Token.repeating ∧
      Program.ofSource "f(x,x)\x7b\x7d" = .error ⟨.duplicateParameter "x", 4⟩ ∧
      ∃ before t after, Token.repeating = before ++ t :: after ∧ 4 = t.loc ∧
        (∃ source' before' after' p, Token.scan source' = .ok (before' ++ after') ∧
          Token.Alike before before' ∧ Program.ofSource source' = .ok p) ∧
        ∀ source' before' t' after', Token.scan source' = .ok (before' ++ t' :: after') →
          Token.Alike (before ++ [t]) (before' ++ [t']) →
          Program.ofSource source' = .error ⟨.duplicateParameter "x", t'.loc⟩ := by
  have scanned : Token.scan "f(x,x)\x7b\x7d" = .ok Token.repeating := by cbv
  have refused : Program.ofSource "f(x,x)\x7b\x7d" = .error ⟨.duplicateParameter "x", 4⟩ := by cbv
  obtain ⟨before, t, after, split, here, -, completed, refuted, -⟩ :=
    refused_at_first_wrong_token scanned refused
  exact ⟨scanned, refused, before, t, after, split, here, completed, refuted⟩

end StackCompiler
