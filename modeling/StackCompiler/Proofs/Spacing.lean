import Mathlib
import StackCompiler.Proofs.Printing

/-!
# Blanks between tokens

Every text that can be scanned consists of the texts of its tokens with runs of blanks before,
between and behind them. The runs may be exchanged for others, and two neighbours need no blank
between them unless the second one would be taken for a continuation of the first one (`Fuses`).

The main statements are these.
* A text that can be scanned is spread out in this way, with every token where it is said to be
  (`exists_isSpread`), and in one way only (`spread_inj`).
* A token stays a lexeme before another one exactly if the two do not fuse or are kept apart
  (`Spelled.isLexeme_before`).
* A text that is spread out anew is scanned as the same tokens exactly if all neighbours that fuse
  are kept apart (`scan_spread`).
-/

namespace StackCompiler

namespace Token

/-! ## 1. Texts of tokens -/

/-- The characters of a token. -/
def chars (t : Token) : List Char :=
  t.text.elim [] String.toList

theorem chars_of_text {t : Token} {text : List Char} (h : t.text = some (String.ofList text)) :
    t.chars = text := by
  rw [chars, h]
  exact String.toList_ofList

theorem Spelled.isLexeme {t : Token} (h : t.Spelled) : IsLexeme t.kind t.chars [] := by
  obtain ⟨text, same, lexeme⟩ := h
  rwa [chars_of_text same]

theorem Spelled.text_eq {t : Token} (h : t.Spelled) : t.text = some (String.ofList t.chars) := by
  obtain ⟨text, same, -⟩ := h
  rw [chars_of_text same, same]

theorem Spelled.exists_cons {t : Token} (h : t.Spelled) :
    ∃ c cs, t.chars = c :: cs ∧ isBlank c = false := by
  have lexeme := h.isLexeme
  obtain ⟨c, cs, same⟩ := List.exists_cons_of_ne_nil lexeme.ne_nil
  exact ⟨c, cs, same, lexeme.not_isBlank c (by rw [same]; exact List.mem_cons_self)⟩

theorem chars_eq_of_content {t t' : Token} (h : t.content = t'.content) : t.chars = t'.chars := by
  rw [chars, chars, (Prod.mk.inj h).2]

/-- The texts of tokens, each with the characters that stand behind it. -/
def spread (parts : List (Token × List Char)) : List Char :=
  parts.flatMap fun part => part.1.chars ++ part.2

@[simp] theorem spread_nil : spread [] = [] := rfl

theorem spread_cons (part : Token × List Char) (parts : List (Token × List Char)) :
    spread (part :: parts) = part.1.chars ++ (part.2 ++ spread parts) := by
  rw [spread, List.flatMap_cons, List.append_assoc]
  rfl

theorem spread_append (xs ys : List (Token × List Char)) :
    spread (xs ++ ys) = spread xs ++ spread ys :=
  List.flatMap_append

/-! ## 2. Neighbours that fuse -/

/-- `Fuses t t'`: where `t'` stands directly behind `t`, what is written there is not `t` and
then `t'`.

* `word`: letters, digits and underscores behind a word continue the word.
* `number`: digits behind a number continue the number. A word behind a number does not.
* `pair`: an equals sign behind `=`, `<` or `>` makes it a punctuator of two characters. -/
inductive Fuses (t t' : Token) : Prop
  | word :
      t.kind = .ident ∨ t.kind = .keyword →
      t'.kind = .ident ∨ t'.kind = .keyword ∨ (∃ value, t'.kind = .num value) → Fuses t t'
  | number {value value' : Option Int64} :
      t.kind = .num value → t'.kind = .num value' → Fuses t t'
  | pair {c : Char} :
      t.kind = .punctuator → t.chars = [c] → c ∈ ['=', '<', '>'] → t'.chars.head? = some '=' →
      Fuses t t'

/-- Whether a lexeme of this kind starts with a letter, a digit or an underscore. -/
theorem IsLexeme.continuesWord_iff {kind : TokenKind} {c : Char} {cs after : List Char}
    (h : IsLexeme kind (c :: cs) after) :
    continuesWord c ↔ kind = .ident ∨ kind = .keyword ∨ ∃ value, kind = .num value := by
  cases h with
  | keyword start _ _ _ => simp [continuesWord_of_startsWord start]
  | word start _ _ _ => simp [continuesWord_of_startsWord start]
  | number _ digits _ _ => simp [continuesWord_of_isDigit (digits c List.mem_cons_self)]
  | pair mem => simp [(punctuator_classes (.inr mem)).2.2]
  | single mem _ => simp [(punctuator_classes (.inl mem)).2.2]

/-- Only numbers start with a digit. -/
theorem IsLexeme.isDigit_iff {kind : TokenKind} {c : Char} {cs after : List Char}
    (h : IsLexeme kind (c :: cs) after) : c.isDigit ↔ ∃ value, kind = .num value := by
  have no_digit {d : Char} (hd : continuesWord d = false) : d.isDigit = false :=
    Bool.eq_false_iff.mpr fun digit => by simp [continuesWord_of_isDigit digit] at hd
  have no_start {d : Char} (hd : startsWord d) : d.isDigit = false :=
    Bool.eq_false_iff.mpr fun digit => by simp [startsWord_eq_false_of_isDigit digit] at hd
  cases h with
  | keyword start _ _ _ => simp [no_start start]
  | word start _ _ _ => simp [no_start start]
  | number _ digits _ _ => simp [digits c List.mem_cons_self]
  | pair mem => simp [no_digit (punctuator_classes (.inr mem)).2.2]
  | single mem _ => simp [no_digit (punctuator_classes (.inl mem)).2.2]

/-- What may follow a lexeme depends on its kind. -/
theorem IsLexeme.ends {kind : TokenKind} {text after : List Char} (h : IsLexeme kind text after) :
    (kind = .ident ∨ kind = .keyword → NotFirst continuesWord after) ∧
      (∀ value, kind = .num value → NotFirst Char.isDigit after) ∧
      ∀ c, kind = .punctuator → text = [c] → c ∈ ['=', '<', '>'] → NotFirst (· == '=') after := by
  cases h with
  | keyword _ _ last _ => exact ⟨fun _ => last, nofun, nofun⟩
  | word _ _ last _ => exact ⟨fun _ => last, nofun, nofun⟩
  | number _ _ last _ => exact ⟨nofun, fun _ _ => last, nofun⟩
  | pair _ => exact ⟨nofun, nofun, nofun⟩
  | single _ last =>
    refine ⟨nofun, nofun, fun c _ same => ?_⟩
    cases same
    exact last

section Neighbours

variable {t t' : Token} {cs : List Char}

/-- Neighbours that fuse are not lexemes one directly behind the other. -/
theorem Fuses.not_isLexeme (h : Fuses t t') (ht' : t'.Spelled) :
    ¬ IsLexeme t.kind t.chars (t'.chars ++ cs) := by
  intro lexeme
  obtain ⟨c, rest, same, -⟩ := ht'.exists_cons
  have next := ht'.isLexeme
  rw [same] at lexeme next
  obtain ⟨word, number, single⟩ := lexeme.ends
  cases h with
  | word kind kind' =>
    have part : continuesWord c := next.continuesWord_iff.mpr kind'
    rw [word kind c _ rfl] at part
    cases part
  | number kind kind' =>
    have digit : c.isDigit := next.isDigit_iff.mpr ⟨_, kind'⟩
    rw [number _ kind c _ rfl] at digit
    cases digit
  | pair kind short mem first =>
    rw [same, List.head?_cons, Option.some.injEq] at first
    have other := single _ kind short mem c _ rfl
    rw [first] at other
    cases other

/-- Neighbours that do not fuse are lexemes one directly behind the other. -/
theorem isLexeme_of_not_fuses (h : ¬ Fuses t t') (ht : t.Spelled) (ht' : t'.Spelled) :
    IsLexeme t.kind t.chars (t'.chars ++ cs) := by
  obtain ⟨c, rest, same, -⟩ := ht'.exists_cons
  have next := ht'.isLexeme
  have lexeme := ht.isLexeme
  rw [same] at next ⊢
  have word_ends (kind : t.kind = .ident ∨ t.kind = .keyword) :
      NotFirst continuesWord (c :: (rest ++ cs)) :=
    notFirst_cons <| Bool.eq_false_iff.mpr fun part =>
      h (.word kind (next.continuesWord_iff.mp part))
  generalize kind : t.kind = k, written : t.chars = text at lexeme ⊢
  cases lexeme with
  | keyword start parts _ key => exact .keyword start parts (word_ends (.inr kind)) key
  | word start parts _ key => exact .word start parts (word_ends (.inl kind)) key
  | number ne digits _ value =>
    refine .number ne digits (notFirst_cons (Bool.eq_false_iff.mpr fun digit => ?_)) value
    obtain ⟨_, kind'⟩ := next.isDigit_iff.mp digit
    exact h (.number kind kind')
  | pair mem => exact .pair mem
  | single mem _ =>
    refine .single mem fun short => notFirst_cons (beq_false_of_ne fun equals => ?_)
    exact h (.pair kind written short (by rw [same, equals]; rfl))

/-- A token stays a lexeme before another one exactly if the two do not fuse or are kept apart. -/
theorem Spelled.isLexeme_before {gap : List Char} (ht : t.Spelled) (ht' : t'.Spelled)
    (blank : ∀ c ∈ gap, isBlank c) :
    IsLexeme t.kind t.chars (gap ++ (t'.chars ++ cs)) ↔ (Fuses t t' → gap ≠ []) := by
  cases gap with
  | nil =>
    constructor
    · exact fun lexeme fuses => absurd lexeme (fuses.not_isLexeme ht')
    · exact fun apart => isLexeme_of_not_fuses (fun fuses => apart fuses rfl) ht ht'
  | cons c gap =>
    refine iff_of_true ?_ fun _ => List.cons_ne_nil c gap
    exact ht.isLexeme.before_blank (blank c List.mem_cons_self) _

end Neighbours

/-! ## 3. Texts spread out -/

/-- Each token is a lexeme before what follows it. -/
def AllLexemes : List (Token × List Char) → Prop
  | [] => True
  | part :: parts =>
    IsLexeme part.1.kind part.1.chars (part.2 ++ spread parts) ∧ AllLexemes parts

/-- Each token is where it stands if the first of them stands behind the characters `before`. -/
def AllPlaced (before : List Char) : List (Token × List Char) → Prop
  | [] => True
  | part :: parts =>
    part.1.loc = Text.byteSize before ∧ AllPlaced (before ++ (part.1.chars ++ part.2)) parts

/-- Two neighbours that fuse have something between them. -/
def Separated (parts : List (Token × List Char)) : Prop :=
  parts.IsChain fun part next => Fuses part.1 next.1 → part.2 ≠ []

/-- Only blanks stand behind the tokens. -/
def AllBlank (parts : List (Token × List Char)) : Prop :=
  ∀ part ∈ parts, ∀ c ∈ part.2, isBlank c

theorem allLexemes_iff {parts : List (Token × List Char)}
    (spelled : ∀ part ∈ parts, part.1.Spelled) (blank : AllBlank parts) :
    AllLexemes parts ↔ Separated parts := by
  induction parts with
  | nil => exact iff_of_true trivial .nil
  | cons part parts ih =>
    obtain ⟨first, spelled⟩ := List.forall_mem_cons.mp spelled
    obtain ⟨gap, blank⟩ := List.forall_mem_cons.mp blank
    rw [AllLexemes, ih spelled blank]
    cases parts with
    | nil =>
      refine iff_of_true ⟨?_, .nil⟩ (.singleton part)
      rw [spread_nil, List.append_nil]
      cases same : part.2 with
      | nil => exact first.isLexeme
      | cons c cs => exact first.isLexeme.before_blank (gap c (by rw [same]; simp)) cs
    | cons next parts =>
      rw [spread_cons, first.isLexeme_before (spelled next List.mem_cons_self) gap, Separated,
        Separated, List.isChain_cons_cons]

/-- The characters `cs`, which stand behind `before`, are the texts of tokens with blanks before,
between and behind them: first those of `lead`. -/
structure IsSpread (before cs lead : List Char) (parts : List (Token × List Char)) : Prop where
  eq : cs = lead ++ spread parts
  front : ∀ c ∈ lead, isBlank c
  blank : AllBlank parts
  lexemes : AllLexemes parts
  placed : AllPlaced (before ++ lead) parts

/-- What is scanned is spread out. -/
theorem exists_isSpread_scanFrom {loc : Nat} {done tokens : List Token} {before cs : List Char}
    (here : Text.byteSize before = loc) (h : scanFrom loc done cs = .ok tokens) :
    ∃ lead parts, IsSpread before cs lead parts ∧
      tokens = done.reverse ++ (parts.map Prod.fst ++
        [⟨.eof, Text.byteSize (before ++ cs), some ""⟩]) := by
  fun_induction scanFrom loc done cs generalizing before with
  | case1 loc done =>
    cases h
    refine ⟨[], [], ⟨rfl, List.forall_mem_nil _, List.forall_mem_nil _, trivial, trivial⟩, ?_⟩
    rw [List.append_nil, here, List.reverse_cons]
    rfl
  | case2 loc done c cs blank ih =>
    have size : Text.byteSize (before ++ [c]) = loc + 1 := by
      rw [Text.byteSize_append, here, byteSize_of_isBlank blank]
      rfl
    obtain ⟨lead, parts, spread, same⟩ := ih size h
    refine ⟨c :: lead, parts, ⟨?_, ?_, spread.blank, spread.lexemes, ?_⟩, ?_⟩
    · rw [spread.eq, List.cons_append]
    · exact List.forall_mem_cons.mpr ⟨blank, spread.front⟩
    · simpa using spread.placed
    · simpa using same
  | case3 => cases h
  | case4 loc done c cs blank l taken ih =>
    have lexeme := isLexeme_of_lexeme taken
    have size : Text.byteSize (before ++ l.text) = loc + l.text.length := by
      rw [Text.byteSize_append, here, lexeme.byteSize_eq]
    obtain ⟨gap, parts, spread, same⟩ := ih size h
    let t : Token := ⟨l.kind, loc, some (String.ofList l.text)⟩
    have chars : t.chars = l.text := chars_of_text rfl
    refine ⟨[], (t, gap) :: parts, ⟨?_, List.forall_mem_nil _, ?_, ?_, ?_⟩, ?_⟩
    · rw [List.nil_append, spread_cons, chars, ← spread.eq, l.split]
    · exact List.forall_mem_cons.mpr ⟨spread.front, spread.blank⟩
    · refine ⟨?_, spread.lexemes⟩
      rw [chars, ← spread.eq]
      exact lexeme
    · refine ⟨by rw [List.append_nil]; exact here.symm, ?_⟩
      rw [List.append_nil, chars, ← List.append_assoc]
      exact spread.placed
    · rw [same, List.append_assoc, l.split]
      simp [t]

/-- A text that can be scanned is spread out. -/
theorem exists_isSpread {source : String} {tokens : List Token} (h : scan source = .ok tokens) :
    ∃ lead parts, IsSpread [] source.toList lead parts ∧
      tokens = parts.map Prod.fst ++ [endOf source] := by
  obtain ⟨lead, parts, spread, same⟩ :=
    @exists_isSpread_scanFrom 0 [] tokens [] source.toList rfl h
  refine ⟨lead, parts, spread, ?_⟩
  rw [same, List.nil_append, Text.byteSize_toList]
  rfl

theorem scanFrom_blanks {loc : Nat} {done : List Token} {gap : List Char}
    (blank : ∀ c ∈ gap, isBlank c) (cs : List Char) :
    scanFrom loc done (gap ++ cs) = scanFrom (loc + gap.length) done cs := by
  induction gap generalizing loc with
  | nil => rfl
  | cons c gap ih =>
    obtain ⟨first, blank⟩ := List.forall_mem_cons.mp blank
    rw [List.cons_append, scanFrom_blank first, ih blank, List.length_cons]
    congr 1
    omega

/-- What is spread out is scanned. -/
theorem exists_scanFrom {loc : Nat} {done : List Token} {parts : List (Token × List Char)}
    (spelled : ∀ part ∈ parts, part.1.Spelled) (blank : AllBlank parts) (h : AllLexemes parts) :
    ∃ body upto, scanFrom loc done (spread parts) =
        .ok (done.reverse ++ (body ++ [⟨.eof, upto, some ""⟩])) ∧
      body.map content = parts.map (content ∘ Prod.fst) := by
  induction parts generalizing loc done with
  | nil =>
    refine ⟨[], loc, ?_, rfl⟩
    rw [spread_nil, scanFrom, List.reverse_cons]
    rfl
  | cons part parts ih =>
    obtain ⟨first, spelled⟩ := List.forall_mem_cons.mp spelled
    obtain ⟨gap, blank⟩ := List.forall_mem_cons.mp blank
    obtain ⟨c, cs, same, visible⟩ := first.exists_cons
    have split : part.1.chars ++ (part.2 ++ spread parts) = c :: (cs ++ (part.2 ++ spread parts)) :=
      by rw [same, List.cons_append]
    obtain ⟨l, taken, kind, text, rest⟩ := h.1.exists_lexeme split
    obtain ⟨body, upto, scanned, contents⟩ := @ih (loc + l.text.length + part.2.length)
      (⟨l.kind, loc, some (String.ofList l.text)⟩ :: done) spelled blank h.2
    refine ⟨⟨l.kind, loc, some (String.ofList l.text)⟩ :: body, upto, ?_, ?_⟩
    · rw [spread_cons, split, scanFrom_lexeme visible taken, rest, scanFrom_blanks gap, scanned,
        List.reverse_cons, List.append_assoc]
      rfl
    · rw [List.map_cons, List.map_cons, contents, content, kind, text, ← first.text_eq]
      rfl

/-! ## 4. There is one way to spread out a text -/

theorem blanks_inj {gap gap' cs cs' : List Char} (blank : ∀ c ∈ gap, isBlank c)
    (blank' : ∀ c ∈ gap', isBlank c) (visible : NotFirst isBlank cs)
    (visible' : NotFirst isBlank cs') (h : gap ++ cs = gap' ++ cs') : gap = gap' ∧ cs = cs' := by
  have taken := congrArg (List.takeWhile isBlank) h
  rw [takeWhile_run blank visible, takeWhile_run blank' visible'] at taken
  subst taken
  exact ⟨rfl, List.append_cancel_left h⟩

theorem notFirst_spread {parts : List (Token × List Char)}
    (spelled : ∀ part ∈ parts, part.1.Spelled) : NotFirst isBlank (spread parts) := by
  cases parts with
  | nil => exact notFirst_nil _
  | cons part parts =>
    obtain ⟨c, cs, same, visible⟩ := (spelled part List.mem_cons_self).exists_cons
    rw [spread_cons, same]
    exact notFirst_cons visible

/-- A text is spread out in one way only. -/
theorem spread_inj {lead lead' : List Char} {parts parts' : List (Token × List Char)}
    (spelled : ∀ part ∈ parts, part.1.Spelled) (spelled' : ∀ part ∈ parts', part.1.Spelled)
    (blank : ∀ c ∈ lead, isBlank c) (blank' : ∀ c ∈ lead', isBlank c) (blanks : AllBlank parts)
    (blanks' : AllBlank parts') (h : lead ++ spread parts = lead' ++ spread parts')
    (same : parts.map (content ∘ Prod.fst) = parts'.map (content ∘ Prod.fst)) :
    lead = lead' ∧ parts.map Prod.snd = parts'.map Prod.snd := by
  obtain ⟨front, texts⟩ := blanks_inj blank blank' (notFirst_spread spelled)
    (notFirst_spread spelled') h
  refine ⟨front, ?_⟩
  clear h
  induction parts generalizing parts' with
  | nil =>
    cases parts' with
    | nil => rfl
    | cons => cases same
  | cons part parts ih =>
    cases parts' with
    | nil => cases same
    | cons part' parts' =>
      rw [List.forall_mem_cons] at spelled spelled'
      obtain ⟨gap, blanks⟩ := List.forall_mem_cons.mp blanks
      obtain ⟨gap', blanks'⟩ := List.forall_mem_cons.mp blanks'
      obtain ⟨first, others⟩ := List.cons.inj same
      rw [spread_cons, spread_cons, chars_eq_of_content first] at texts
      obtain ⟨gaps, rest⟩ := blanks_inj gap gap' (notFirst_spread spelled.2)
        (notFirst_spread spelled'.2) (List.append_cancel_left texts)
      rw [List.map_cons, List.map_cons, gaps, ih spelled.2 spelled'.2 blanks blanks' others rest]

section Congr

variable {parts parts' : List (Token × List Char)}

/-- Places do not matter for how tokens are spread out. -/
theorem spread_congr (contents : parts.map (content ∘ Prod.fst) = parts'.map (content ∘ Prod.fst))
    (gaps : parts.map Prod.snd = parts'.map Prod.snd) : spread parts = spread parts' := by
  induction parts generalizing parts' with
  | nil =>
    cases parts' with
    | nil => rfl
    | cons => cases gaps
  | cons part parts ih =>
    cases parts' with
    | nil => cases gaps
    | cons part' parts' =>
      obtain ⟨first, contents⟩ := List.cons.inj contents
      obtain ⟨gap, gaps⟩ := List.cons.inj gaps
      rw [spread_cons, spread_cons, ih contents gaps, chars_eq_of_content first, gap]

theorem AllLexemes.congr (h : AllLexemes parts)
    (contents : parts.map (content ∘ Prod.fst) = parts'.map (content ∘ Prod.fst))
    (gaps : parts.map Prod.snd = parts'.map Prod.snd) : AllLexemes parts' := by
  induction parts generalizing parts' with
  | nil =>
    cases parts' with
    | nil => trivial
    | cons => cases gaps
  | cons part parts ih =>
    cases parts' with
    | nil => cases gaps
    | cons part' parts' =>
      obtain ⟨first, contents⟩ := List.cons.inj contents
      obtain ⟨gap, gaps⟩ := List.cons.inj gaps
      refine ⟨?_, ih h.2 contents gaps⟩
      have lexeme := h.1
      rw [spread_congr contents gaps, gap, chars_eq_of_content first] at lexeme
      rw [← (Prod.mk.inj first).1]
      exact lexeme

end Congr

/-! ## 5. Spreading out anew -/

section Anew

variable {source : String} {tokens : List Token} {lead : List Char}
  {parts : List (Token × List Char)}

theorem spelled_of_scan (scanned : scan source = .ok tokens)
    (same : tokens = parts.map Prod.fst ++ [endOf source]) : ∀ part ∈ parts, part.1.Spelled := by
  intro part hp
  obtain ⟨body, split, lexes⟩ := scan_eq_ok.mp scanned
  obtain ⟨rfl, -⟩ := List.append_inj' (same.symm.trans split) rfl
  exact (lexes.placed part.1 (List.mem_map_of_mem hp)).spelled

/-- Lexemes with blanks around them are scanned as they are. -/
theorem exists_scan_spread (spelled : ∀ part ∈ parts, part.1.Spelled)
    (front : ∀ c ∈ lead, isBlank c) (blank : AllBlank parts) (h : Separated parts) :
    ∃ body, scan (String.ofList (lead ++ spread parts)) =
        .ok (body ++ [endOf (String.ofList (lead ++ spread parts))]) ∧
      body.map content = parts.map (content ∘ Prod.fst) := by
  obtain ⟨body, upto, scanned, contents⟩ := @exists_scanFrom (0 + lead.length) [] parts
    spelled blank ((allLexemes_iff spelled blank).mpr h)
  have whole : scan (String.ofList (lead ++ spread parts)) =
      .ok (body ++ [⟨.eof, upto, some ""⟩]) := by
    rw [scan, String.toList_ofList, scanFrom_blanks front, scanned]
    rfl
  -- the end marker is that of the text
  obtain ⟨body', split, -⟩ := scan_eq_ok.mp whole
  obtain ⟨rfl, last⟩ := List.append_inj' split rfl
  rw [last] at whole
  exact ⟨body, whole, contents⟩

/-- Texts with the same tokens differ in their blanks only. If the tokens of a source are written
anew, with any blanks before, between and behind them, then they are scanned as tokens of the same
kinds, texts and values, one by one, exactly if all neighbours that fuse have a blank between them.
Otherwise there are other tokens, or none. -/
theorem scan_spread (scanned : scan source = .ok tokens)
    (same : tokens = parts.map Prod.fst ++ [endOf source]) (front : ∀ c ∈ lead, isBlank c)
    (blank : AllBlank parts) :
    (∃ tokens', scan (String.ofList (lead ++ spread parts)) = .ok tokens' ∧
      tokens'.map content = tokens.map content) ↔ Separated parts := by
  have spelled := spelled_of_scan scanned same
  constructor
  · rintro ⟨tokens', scanned', contents⟩
    obtain ⟨lead', parts', anew, same'⟩ := exists_isSpread scanned'
    have spelled' := spelled_of_scan scanned' same'
    rw [same, same', List.map_append, List.map_append] at contents
    obtain ⟨contents, -⟩ := List.append_inj' contents rfl
    rw [List.map_map, List.map_map] at contents
    have eq := anew.eq
    rw [String.toList_ofList] at eq
    obtain ⟨-, gaps⟩ := spread_inj spelled spelled' front anew.front blank anew.blank eq
      contents.symm
    exact (allLexemes_iff spelled blank).mp (anew.lexemes.congr contents gaps.symm)
  · intro h
    obtain ⟨body, scanned', contents⟩ := exists_scan_spread spelled front blank h
    refine ⟨_, scanned', ?_⟩
    rw [same, List.map_append, List.map_append, contents, List.map_map]
    rfl

end Anew

/-- The tokens `1`, `if`, `x`, `=` and `==`, with gaps before, between and behind them. -/
def crowd (a b c d : List Char) : List (Token × List Char) :=
  [(⟨.num (some 1), 0, some "1"⟩, a), (⟨.keyword, 2, some "if"⟩, b), (⟨.ident, 5, some "x"⟩, c),
    (⟨.punctuator, 7, some "="⟩, d), (⟨.punctuator, 9, some "=="⟩, [])]

/-- A number is not continued by a word, nor a word by a punctuator, but `=` is by `==`. -/
theorem scan_crowd :
    scan "1 if x = ==" = .ok ((crowd [' '] [' '] [' '] [' ']).map Prod.fst ++
        [endOf "1 if x = =="]) ∧
      (∃ tokens, scan "1if\tx= ==" = .ok tokens ∧
        tokens.map content = ((crowd [' '] [' '] [' '] [' ']).map Prod.fst ++
          [endOf "1 if x = =="]).map content) ∧
      ¬ ∃ tokens, scan "1if\tx===" = .ok tokens ∧
        tokens.map content = ((crowd [' '] [' '] [' '] [' ']).map Prod.fst ++
          [endOf "1 if x = =="]).map content := by
  have scanned : scan "1 if x = ==" = .ok ((crowd [' '] [' '] [' '] [' ']).map Prod.fst ++
      [endOf "1 if x = =="]) := by cbv
  have blank {d : List Char} (h : d ⊆ [' ']) : AllBlank (crowd [] ['\t'] [] d) := by
    have last : ∀ c ∈ d, isBlank c := fun c hc => by rw [List.mem_singleton.mp (h hc)]; rfl
    have tab : isBlank '\t' := rfl
    simpa [AllBlank, crowd, tab] using last
  have apart := @scan_spread "1 if x = ==" _ [] (crowd [] ['\t'] [] [' ']) scanned rfl
    (List.forall_mem_nil _) (blank (List.Subset.refl _))
  have fused := @scan_spread "1 if x = ==" _ [] (crowd [] ['\t'] [] []) scanned rfl
    (List.forall_mem_nil _) (blank (List.nil_subset _))
  refine ⟨scanned, apart.mpr ?_, fun found => ?_⟩
  · have number : ¬ Fuses ⟨.num (some 1), 0, some "1"⟩ ⟨.keyword, 2, some "if"⟩ := by
      rintro (⟨kind, -⟩ | ⟨-, kind⟩ | ⟨kind, -⟩)
      · simp at kind
      · cases kind
      · cases kind
    have word : ¬ Fuses ⟨.ident, 5, some "x"⟩ ⟨.punctuator, 7, some "="⟩ := by
      rintro (⟨-, kind⟩ | ⟨kind, -⟩ | ⟨kind, -⟩)
      · simp at kind
      · cases kind
      · cases kind
    simp [Separated, crowd, number, word]
  · have separated := fused.mp found
    have pair : Fuses ⟨.punctuator, 7, some "="⟩ ⟨.punctuator, 9, some "=="⟩ :=
      .pair rfl rfl (List.mem_cons_self) rfl
    simp [Separated, crowd, pair] at separated

end Token

end StackCompiler
