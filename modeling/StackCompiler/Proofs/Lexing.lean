import StackCompiler.Proofs.Lexemes

/-!
# Scanning is longest-match lexing

A lexing of a source is described by its tokens alone: each is a lexeme at its place, they stand
one behind the other, and everything between them is blank (`Lexes`). No part of the description
says in which order the tokens are found.

The main statements are these.
* The scanner yields a list of tokens exactly if that list is a lexing of the source, so there is
  at most one, and it fails exactly where there is none (`scan_exact`).
* It fails at the place up to which the source can be lexed and from which on it cannot.
-/

namespace StackCompiler

namespace Token

/-! ## 1. Lexings -/

/-- The token is a lexeme of the source, at its place. -/
def IsPlaced (source : String) (t : Token) : Prop :=
  ∃ before text after, source.toList = before ++ (text ++ after) ∧
    Text.byteSize before = t.loc ∧ t.text = some (String.ofList text) ∧
    IsLexeme t.kind text after

/-- `Lexes source upto tokens`: the first `upto` bytes of the source consist of these tokens and
of blanks. -/
structure Lexes (source : String) (upto : Nat) (tokens : List Token) : Prop where
  /-- Every token is a lexeme, as long as it can be. -/
  placed : ∀ t ∈ tokens, IsPlaced source t
  /-- Every token takes up some bytes. -/
  nonempty : ∀ t ∈ tokens, 0 < t.size
  /-- Every token ends before those behind it start. -/
  ordered : tokens.Pairwise fun t t' => t.loc + t.size ≤ t'.loc
  /-- Every token ends within the bytes that are lexed. -/
  within : ∀ t ∈ tokens, t.loc + t.size ≤ upto
  /-- Every byte outside of the tokens is a blank. -/
  blank : ∀ b < upto, (∀ t ∈ tokens, ¬ (t.loc ≤ b ∧ b < t.loc + t.size)) →
    ∃ before c after, source.toList = before ++ c :: after ∧ Text.byteSize before = b ∧
      c ∈ [' ', '\t', '\n', '\x0c', '\r']

/-- The end marker of a source. -/
def endOf (source : String) : Token :=
  ⟨.eof, source.utf8ByteSize, some ""⟩

/-- The tokens are those of the whole source, with the end marker behind them. -/
def IsLexing (source : String) (tokens : List Token) : Prop :=
  ∃ body, tokens = body ++ [endOf source] ∧ Lexes source source.utf8ByteSize body

/-- Everything before the place of the fault can be lexed, and there no lexeme starts. -/
def FailsAt (source : String) (l : Located) : Prop :=
  (∃ body, Lexes source l.loc body) ∧
    ∃ before rest, source.toList = before ++ rest ∧ Text.byteSize before = l.loc ∧
      Refuses l.fault rest

variable {source : String}

/-! ## 2. Places in the source -/

/-- A byte offset splits a text in one way at most. -/
theorem split_unique {before before' cs cs' : List Char} (h : before ++ cs = before' ++ cs')
    (hsize : Text.byteSize before = Text.byteSize before') : before = before' ∧ cs = cs' := by
  have hcut := Text.cut_exact before cs
  rw [hsize, h, Text.cut_exact before' cs'] at hcut
  obtain ⟨hrev, hcs⟩ := Prod.mk.inj hcut
  exact ⟨(List.reverse_inj.mp hrev).symm, hcs.symm⟩

/-- Going on behind some characters of one byte each. -/
theorem split_past {before text after : List Char} {loc : Nat}
    (hsource : source.toList = before ++ (text ++ after)) (hloc : Text.byteSize before = loc)
    (hsize : Text.byteSize text = text.length) :
    source.toList = (before ++ text) ++ after ∧
      Text.byteSize (before ++ text) = loc + text.length := by
  rw [hsource, List.append_assoc, Text.byteSize_append, hloc, hsize]
  exact ⟨rfl, rfl⟩

theorem byteSize_of_isBlank {c : Char} (h : isBlank c) : Text.byteSize [c] = [c].length := by
  rw [Text.byteSize_cons, (isBlank_classes h).1]
  rfl

/-- The bytes of a placed token are those of its text. -/
theorem size_of_text {t : Token} {text : List Char} (h : t.text = some (String.ofList text)) :
    t.size = Text.byteSize text := by
  unfold size
  rw [h, Text.byteSize_eq_utf8ByteSize]
  rfl

theorem byteSize_pos {cs : List Char} (h : cs ≠ []) : 0 < Text.byteSize cs := by
  cases cs with
  | nil => exact absurd rfl h
  | cons c cs => exact Nat.lt_of_lt_of_le c.utf8Size_pos (Nat.le_add_right _ _)

/-- A token that is placed at the byte `loc` is what the scanner takes there. -/
theorem IsPlaced.exists_lexeme {t : Token} {before cs : List Char} {c : Char}
    (h : IsPlaced source t) (hsource : source.toList = before ++ c :: cs)
    (hloc : Text.byteSize before = t.loc) :
    isBlank c = false ∧ ∃ l : Lexeme (c :: cs), lexeme c cs = .ok l ∧
      t = ⟨l.kind, t.loc, some (String.ofList l.text)⟩ ∧ t.size = l.text.length := by
  obtain ⟨before', text, after, hsource', hloc', htext, hlex⟩ := h
  have hsize := (size_of_text htext).trans hlex.byteSize_eq
  obtain ⟨rfl, hcs⟩ := split_unique (hsource'.symm.trans hsource) (hloc'.trans hloc.symm)
  have hblank : isBlank c = false := by
    cases text with
    | nil => exact absurd rfl hlex.ne_nil
    | cons d text =>
      cases hcs
      exact hlex.not_isBlank _ List.mem_cons_self
  obtain ⟨l, hl, hkind, rfl, -⟩ := hlex.exists_lexeme hcs
  refine ⟨hblank, l, hl, ?_, hsize⟩
  rw [hkind, ← htext]

/-! ## 3. What the scanner yields is a lexing -/

/-- Tokens start one behind the other. -/
theorem Lexes.pairwise_loc {upto : Nat} {tokens : List Token} (h : Lexes source upto tokens) :
    tokens.Pairwise fun t t' => t.loc < t'.loc := by
  refine h.ordered.imp_of_mem fun {t t'} ht _ le => ?_
  exact Nat.lt_of_lt_of_le (Nat.lt_add_of_pos_right (h.nonempty t ht)) le

theorem Lexes.nil (source : String) : Lexes source 0 [] where
  placed := fun _ h => by cases h
  nonempty := fun _ h => by cases h
  ordered := .nil
  within := fun _ h => by cases h
  blank := fun _ h => absurd h (Nat.not_lt_zero _)

/-- A blank behind what is lexed is lexed too. -/
theorem Lexes.skip {before cs : List Char} {c : Char} {loc : Nat} {tokens : List Token}
    (h : Lexes source loc tokens) (hsource : source.toList = before ++ c :: cs)
    (hloc : Text.byteSize before = loc) (hc : isBlank c) : Lexes source (loc + 1) tokens where
  placed := h.placed
  nonempty := h.nonempty
  ordered := h.ordered
  within := fun t ht => Nat.le_succ_of_le (h.within t ht)
  blank := by
    intro b hb hout
    rcases Nat.lt_succ_iff_lt_or_eq.mp hb with hb | rfl
    · exact h.blank b hb hout
    · exact ⟨before, c, cs, hsource, hloc, isBlank_iff.mp hc⟩

/-- A lexeme behind what is lexed is one more token. -/
theorem Lexes.take {before text after : List Char} {kind : TokenKind} {loc : Nat}
    {tokens : List Token} (h : Lexes source loc tokens)
    (hsource : source.toList = before ++ (text ++ after)) (hloc : Text.byteSize before = loc)
    (hlex : IsLexeme kind text after) :
    Lexes source (loc + text.length) (tokens ++ [⟨kind, loc, some (String.ofList text)⟩]) := by
  let t : Token := ⟨kind, loc, some (String.ofList text)⟩
  have hsize : t.size = text.length := (size_of_text rfl).trans hlex.byteSize_eq
  have hpos : 0 < text.length := List.length_pos_iff.mpr hlex.ne_nil
  have hall {P : Token → Prop} (hold : ∀ u ∈ tokens, P u) (hnew : P t) :
      ∀ u ∈ tokens ++ [t], P u :=
    List.forall_mem_append.mpr ⟨hold, List.forall_mem_singleton.mpr hnew⟩
  constructor
  · exact hall h.placed ⟨before, text, after, hsource, hloc, rfl, hlex⟩
  · exact hall h.nonempty (hsize ▸ hpos)
  · refine List.pairwise_append.mpr ⟨h.ordered, List.pairwise_singleton _ _, ?_⟩
    intro u hu v hv
    rw [List.mem_singleton.mp hv]
    exact h.within u hu
  · exact hall (fun u hu => Nat.le_trans (h.within u hu) (Nat.le_add_right _ _))
      (Nat.le_of_eq (congrArg (loc + ·) hsize))
  · intro b hb hout
    obtain ⟨hold, hnew⟩ := List.forall_mem_append.mp hout
    have hnew : ¬ (loc ≤ b ∧ b < loc + t.size) := hnew t (List.mem_singleton.mpr rfl)
    exact h.blank b (by omega) hold

/-- The outcome says of the source what the scanner is meant to say. -/
def IsOutcome (source : String) : Except Located (List Token) → Prop
  | .ok tokens => IsLexing source tokens
  | .error l => FailsAt source l

theorem isOutcome_scanFrom {loc : Nat} {done : List Token} {before cs : List Char}
    (hsource : source.toList = before ++ cs) (hloc : Text.byteSize before = loc)
    (h : Lexes source loc done.reverse) : IsOutcome source (scanFrom loc done cs) := by
  fun_induction scanFrom loc done cs generalizing before with
  | case1 loc done =>
    have hend : loc = source.utf8ByteSize := by
      rw [← hloc, ← Text.byteSize_toList, hsource, List.append_nil]
    subst hend
    exact ⟨done.reverse, List.reverse_cons, h⟩
  | case2 loc done c cs hblank ih =>
    obtain ⟨hsource', hloc'⟩ := split_past (show source.toList = before ++ ([c] ++ cs) from hsource)
      hloc (byteSize_of_isBlank hblank)
    exact ih hsource' hloc' (h.skip hsource hloc hblank)
  | case3 loc done c cs hblank fault heq =>
    have hrefuses := refuses_of_lexeme (Bool.eq_false_iff.mpr hblank) heq
    exact ⟨⟨done.reverse, h⟩, before, c :: cs, hsource, hloc, hrefuses⟩
  | case4 loc done c cs hblank l heq ih =>
    have hlex := isLexeme_of_lexeme heq
    rw [← l.split] at hsource
    obtain ⟨hsource', hloc'⟩ := split_past hsource hloc hlex.byteSize_eq
    refine ih hsource' hloc' ?_
    rw [List.reverse_cons]
    exact h.take hsource hloc hlex

/-! ## 4. There is no other lexing -/

theorem scanFrom_blank {loc : Nat} {done : List Token} {c : Char} {cs : List Char}
    (h : isBlank c) : scanFrom loc done (c :: cs) = scanFrom (loc + 1) done cs := by
  rw [scanFrom, if_pos h]

theorem scanFrom_lexeme {loc : Nat} {done : List Token} {c : Char} {cs : List Char}
    {l : Lexeme (c :: cs)} (hc : isBlank c = false) (h : lexeme c cs = .ok l) :
    scanFrom loc done (c :: cs) =
      scanFrom (loc + l.text.length) (⟨l.kind, loc, some (String.ofList l.text)⟩ :: done)
        l.rest := by
  rw [scanFrom, hc, if_neg Bool.false_ne_true, h]

theorem scanFrom_error {loc : Nat} {done : List Token} {c : Char} {cs : List Char}
    {fault : Fault} (hc : isBlank c = false) (h : lexeme c cs = .error fault) :
    scanFrom loc done (c :: cs) = .error ⟨fault, loc⟩ := by
  rw [scanFrom, hc, if_neg Bool.false_ne_true, h]

/-- The scan stands at the byte `loc` of what is lexed up to `upto`, with the tokens `done` behind
it, the last one first, and the tokens `tail` ahead. -/
structure Stands (source : String) (upto loc : Nat) (done tail : List Token) : Prop where
  lexes : Lexes source upto (done.reverse ++ tail)
  behind : ∀ t ∈ done, t.loc + t.size ≤ loc
  ahead : ∀ t ∈ tail, loc ≤ t.loc
  reached : loc ≤ upto

section Standing

variable {upto loc : Nat} {done tail : List Token} {before cs : List Char} {c : Char}

/-- A token ahead that covers the byte at which the scan stands is the first one, and starts
there. -/
theorem Stands.head_of_covers (h : Stands source upto loc done tail) {t : Token} (ht : t ∈ tail)
    (hstart : t.loc ≤ loc) : t.loc = loc ∧ ∃ rest, tail = t :: rest := by
  have heq : t.loc = loc := Nat.le_antisymm hstart (h.ahead t ht)
  refine ⟨heq, ?_⟩
  cases tail with
  | nil => cases ht
  | cons u rest =>
    rcases List.mem_cons.mp ht with rfl | hrest
    · exact ⟨rest, rfl⟩
    · have hu : u ∈ done.reverse ++ u :: rest := List.mem_append_right _ List.mem_cons_self
      have hordered := (List.pairwise_append.mp h.lexes.ordered).2.1
      have hend := (List.pairwise_cons.mp hordered).1 t hrest
      have hpos := h.lexes.nonempty u hu
      have hahead := h.ahead u List.mem_cons_self
      omega

/-- Before the end of what is lexed, the scan stands at a blank or at the first token ahead. -/
theorem Stands.next (h : Stands source upto loc done tail) (hlt : loc < upto)
    (hsource : source.toList = before ++ c :: cs) (hloc : Text.byteSize before = loc) :
    (isBlank c ∧ Stands source upto (loc + 1) done tail) ∨
      isBlank c = false ∧ ∃ (l : Lexeme (c :: cs)) (rest : List Token), lexeme c cs = .ok l ∧
        tail = ⟨l.kind, loc, some (String.ofList l.text)⟩ :: rest ∧
        Stands source upto (loc + l.text.length)
          (⟨l.kind, loc, some (String.ofList l.text)⟩ :: done) rest := by
  by_cases hcovered : ∃ t ∈ tail, t.loc ≤ loc
  · obtain ⟨t, ht, hstart⟩ := hcovered
    obtain ⟨heq, rest, rfl⟩ := h.head_of_covers ht hstart
    have hmem : t ∈ done.reverse ++ t :: rest := List.mem_append_right _ ht
    obtain ⟨hblank, l, hl, htok, hsize⟩ :=
      (h.lexes.placed t hmem).exists_lexeme hsource (hloc.trans heq.symm)
    rw [heq] at htok
    refine .inr ⟨hblank, l, rest, hl, by rw [← htok], ?_⟩
    have hordered := (List.pairwise_append.mp h.lexes.ordered).2.1
    rw [← htok, ← hsize]
    constructor
    · rw [List.reverse_cons, List.append_assoc]
      exact h.lexes
    · refine List.forall_mem_cons.mpr ⟨Nat.le_of_eq (congrArg (· + t.size) heq), ?_⟩
      exact fun u hu => Nat.le_trans (h.behind u hu) (Nat.le_add_right _ _)
    · exact fun u hu => heq ▸ (List.pairwise_cons.mp hordered).1 u hu
    · exact heq ▸ h.lexes.within t hmem
  · have hahead : ∀ t ∈ tail, loc < t.loc :=
      fun t ht => Nat.lt_of_not_le fun hle => hcovered ⟨t, ht, hle⟩
    have hout : ∀ t ∈ done.reverse ++ tail, ¬ (t.loc ≤ loc ∧ loc < t.loc + t.size) := by
      refine List.forall_mem_append.mpr ⟨fun t ht h' => ?_, fun t ht h' => ?_⟩
      · have := h.behind t (List.mem_reverse.mp ht)
        omega
      · have := hahead t ht
        omega
    obtain ⟨before', c', after, hsource', hloc', hblank⟩ := h.lexes.blank loc hlt hout
    obtain ⟨rfl, hcs⟩ := split_unique (hsource'.symm.trans hsource) (hloc'.trans hloc.symm)
    cases hcs
    have behind := fun t ht => Nat.le_succ_of_le (h.behind t ht)
    exact .inl ⟨isBlank_iff.mpr hblank, h.lexes, behind, hahead, hlt⟩

end Standing

/-- What follows from a lexing up to `upto`, if that is as far as the source can be lexed. -/
inductive Ends (source : String) (upto : Nat) (tokens : List Token) :
    Except Located (List Token) → Prop
  | ok : upto = source.utf8ByteSize → Ends source upto tokens (.ok (tokens ++ [endOf source]))
  | error {fault : Fault} {before rest : List Char} :
      source.toList = before ++ rest → Text.byteSize before = upto → Refuses fault rest →
      Ends source upto tokens (.error ⟨fault, upto⟩)

/-- A part of a source and what follows it make up all its bytes. -/
theorem byteSize_eq_of_split {before cs : List Char} (h : source.toList = before ++ cs) :
    source.utf8ByteSize = Text.byteSize before + Text.byteSize cs := by
  rw [← Text.byteSize_toList, h, Text.byteSize_append]

theorem Refuses.ne_nil {fault : Fault} {cs : List Char} (h : Refuses fault cs) : cs ≠ [] := by
  cases h with
  | stray _ _ _ _ _ => exact List.cons_ne_nil _ _
  | large hne _ _ _ => exact fun h => hne (List.append_eq_nil_iff.mp h).1

theorem Ends.le {upto : Nat} {tokens : List Token} {r : Except Located (List Token)}
    (h : Ends source upto tokens r) : upto ≤ source.utf8ByteSize := by
  cases h with
  | ok heq => exact Nat.le_of_eq heq
  | error hsource hloc _ =>
    rw [byteSize_eq_of_split hsource, hloc]
    exact Nat.le_add_right _ _

/-- The scan ends where the source cannot be lexed any further. -/
theorem scanFrom_of_ends {loc : Nat} {done tail : List Token} {before cs : List Char}
    {r : Except Located (List Token)} (hsource : source.toList = before ++ cs)
    (hloc : Text.byteSize before = loc) (h : Stands source loc loc done tail)
    (hends : Ends source loc (done.reverse ++ tail) r) : scanFrom loc done cs = r := by
  cases hends with
  | ok heq =>
    have htail : tail = [] := by
      refine List.eq_nil_iff_forall_not_mem.mpr fun t ht => ?_
      have hmem : t ∈ done.reverse ++ tail := List.mem_append_right _ ht
      have hahead := h.ahead t ht
      have hpos := h.lexes.nonempty t hmem
      have hwithin := h.lexes.within t hmem
      omega
    have hcs : cs = [] := by
      have hsize := byteSize_eq_of_split hsource
      refine Decidable.byContradiction fun hne => ?_
      have hpos := byteSize_pos hne
      omega
    rw [htail, hcs, scanFrom, List.append_nil, List.reverse_cons, heq]
    rfl
  | error hsource' hloc' hrefuses =>
    obtain ⟨rfl, rfl⟩ := split_unique (hsource'.symm.trans hsource) (hloc'.trans hloc.symm)
    obtain ⟨c, cs, rfl⟩ := List.exists_cons_of_ne_nil hrefuses.ne_nil
    obtain ⟨hblank, herror⟩ := hrefuses.lexeme_eq rfl
    exact scanFrom_error hblank herror

/-- The scan follows any lexing of the source. -/
theorem scanFrom_eq {upto loc : Nat} {done tail : List Token} {before cs : List Char}
    {r : Except Located (List Token)} (hsource : source.toList = before ++ cs)
    (hloc : Text.byteSize before = loc) (h : Stands source upto loc done tail)
    (hends : Ends source upto (done.reverse ++ tail) r) : scanFrom loc done cs = r := by
  -- every step gets closer to `upto`, where the tokens ahead are used up
  rcases Nat.eq_or_lt_of_le h.reached with rfl | hlt
  · exact scanFrom_of_ends hsource hloc h hends
  match cs with
  | [] =>
    have hsize := byteSize_eq_of_split hsource
    have hle := hends.le
    rw [Text.byteSize_nil] at hsize
    omega
  | c :: cs =>
    rcases h.next hlt hsource hloc with ⟨hblank, hnext⟩ | ⟨hblank, l, rest, hl, rfl, hnext⟩
    · rw [scanFrom_blank hblank]
      obtain ⟨hsource', hloc'⟩ := split_past
        (show source.toList = before ++ ([c] ++ cs) from hsource) hloc (byteSize_of_isBlank hblank)
      exact scanFrom_eq hsource' hloc' hnext hends
    · rw [scanFrom_lexeme hblank hl]
      have hlex := isLexeme_of_lexeme hl
      have hlt := l.rest_length_lt
      rw [← l.split] at hsource
      obtain ⟨hsource', hloc'⟩ := split_past hsource hloc hlex.byteSize_eq
      refine scanFrom_eq hsource' hloc' hnext ?_
      rwa [List.reverse_cons, List.append_assoc]
termination_by cs.length
decreasing_by
  · exact Nat.lt_succ_self _
  · exact hlt

/-! ## 5. The scanner -/

theorem isOutcome_scan (source : String) : IsOutcome source (scan source) :=
  @isOutcome_scanFrom source 0 [] [] source.toList rfl rfl (Lexes.nil source)

theorem scan_eq_of_ends {upto : Nat} {body : List Token} {r : Except Located (List Token)}
    (h : Lexes source upto body) (hends : Ends source upto body r) : scan source = r :=
  @scanFrom_eq source upto 0 [] body [] source.toList r rfl rfl
    ⟨h, List.forall_mem_nil _, fun _ _ => Nat.zero_le _, Nat.zero_le _⟩ hends

theorem scan_eq_ok {tokens : List Token} : scan source = .ok tokens ↔ IsLexing source tokens := by
  constructor
  · intro h
    have := isOutcome_scan source
    rwa [h] at this
  · rintro ⟨body, rfl, h⟩
    exact scan_eq_of_ends h (.ok rfl)

theorem scan_eq_error {l : Located} : scan source = .error l ↔ FailsAt source l := by
  constructor
  · intro h
    have := isOutcome_scan source
    rwa [h] at this
  · rintro ⟨⟨body, h⟩, before, rest, hsource, hloc, hrefuses⟩
    exact scan_eq_of_ends h (.error hsource hloc hrefuses)

/-- The scanner is longest-match lexing. It yields a list of tokens exactly if the list is a
lexing of the source, so that at most one list is; it fails exactly if none is; and it fails
with a lexical fault, exactly at the byte before which the source can be lexed and at which there
is neither a blank nor a lexeme. -/
theorem scan_exact (source : String) :
    (∀ tokens, scan source = .ok tokens ↔ IsLexing source tokens) ∧
      (∀ tokens tokens', IsLexing source tokens → IsLexing source tokens' → tokens = tokens') ∧
      ((∃ l, scan source = .error l) ↔ ¬ ∃ tokens, IsLexing source tokens) ∧
      ∀ l, scan source = .error l ↔ FailsAt source l ∧ l.fault.stage = .lexical := by
  refine ⟨fun tokens => scan_eq_ok, fun tokens tokens' h h' => ?_, ⟨?_, ?_⟩, fun l => ?_⟩
  · exact Except.ok.inj ((scan_eq_ok.mpr h).symm.trans (scan_eq_ok.mpr h'))
  · rintro ⟨l, hl⟩ ⟨tokens, h⟩
    rw [scan_eq_ok.mpr h] at hl
    cases hl
  · intro hnone
    cases heq : scan source with
    | ok tokens => exact absurd ⟨tokens, scan_eq_ok.mp heq⟩ hnone
    | error l => exact ⟨l, rfl⟩
  · rw [scan_eq_error]
    refine ⟨fun h => ⟨h, ?_⟩, fun h => h.1⟩
    obtain ⟨-, _, _, _, _, hrefuses⟩ := h
    generalize l.fault = fault at hrefuses ⊢
    cases hrefuses with
    | stray _ _ _ _ _ => rfl
    | large _ _ _ _ => rfl

example : scan "a<=1" = .ok [⟨.ident, 0, some "a"⟩, ⟨.punctuator, 1, some "<="⟩,
    ⟨.num (some 1), 3, some "1"⟩, endOf "a<=1"] := by
  cbv

example : scan "a ! 1" = .error ⟨.strayCharacter '!', 2⟩ := by
  cbv

end Token

end StackCompiler
