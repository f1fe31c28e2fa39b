import Mathlib
import StackCompiler.Token.Scan

/-!
# Lexemes

Which texts are lexemes, and where no lexeme starts, without saying how a lexeme is found. A word
or a number ends where no further character can belong to it, and `=`, `<` and `>` stand alone
only where no `=` follows. The classes of characters and the values of numbers are given by
themselves, and the scanner is found to have the same ones.

The scanner takes exactly these lexemes (`isLexeme_of_lexeme`, `IsLexeme.exists_lexeme`) and
objects exactly where none starts (`refuses_of_lexeme`, `Refuses.lexeme_eq`).
-/

namespace StackCompiler

namespace Token

/-! ## 1. The lexemes -/

/-- An ASCII letter or the underscore. -/
def startsWord (c : Char) : Bool :=
  ('A' ≤ c ∧ c ≤ 'Z') ∨ ('a' ≤ c ∧ c ≤ 'z') ∨ c = '_'

/-- An ASCII letter, the underscore or a digit. -/
def continuesWord (c : Char) : Bool :=
  startsWord c ∨ ('0' ≤ c ∧ c ≤ '9')

/-- The number that digits write in decimal. Each counts ten times as much as the one behind it. -/
def decimal : List Char → Nat
  | [] => 0
  | d :: ds => (d.toNat - '0'.toNat) * 10 ^ ds.length + decimal ds

/-- No character with the property `p` comes first. -/
def NotFirst (p : Char → Bool) (cs : List Char) : Prop :=
  ∀ c rest, cs = c :: rest → p c = false

/-- `IsLexeme kind text after`: the characters `text` are a lexeme of this kind where the
characters `after` follow it.

* `keyword`, `word`: a letter or an underscore, and all letters, digits and underscores behind.
* `number`: a whole run of digits, with the value that it writes in decimal.
* `pair`: one of `==`, `!=`, `<=` and `>=`.
* `single`: a punctuator of one character that does not begin one of two. -/
inductive IsLexeme : TokenKind → List Char → List Char → Prop
  | keyword {c : Char} {cs after : List Char} :
      startsWord c → (∀ d ∈ cs, continuesWord d) → NotFirst continuesWord after →
      String.ofList (c :: cs) ∈ ["return", "if", "else", "for"] →
      IsLexeme .keyword (c :: cs) after
  | word {c : Char} {cs after : List Char} :
      startsWord c → (∀ d ∈ cs, continuesWord d) → NotFirst continuesWord after →
      String.ofList (c :: cs) ∉ ["return", "if", "else", "for"] →
      IsLexeme .ident (c :: cs) after
  | number {digits after : List Char} {value : Int64} :
      digits ≠ [] → (∀ d ∈ digits, d.isDigit) → NotFirst Char.isDigit after →
      value.toInt = decimal digits → IsLexeme (.num (some value)) digits after
  | pair {c : Char} {after : List Char} :
      c ∈ ['=', '!', '<', '>'] → IsLexeme .punctuator [c, '='] after
  | single {c : Char} {after : List Char} :
      c ∈ ['+', '-', '*', '/', '(', ')', '\x7b', '\x7d', ';', ',', '<', '>', '='] →
      (c ∈ ['=', '<', '>'] → NotFirst (· == '=') after) → IsLexeme .punctuator [c] after

/-- `Refuses fault cs`: the text `cs` starts with neither a blank nor a lexeme, for the reason
`fault`.

* `stray`: its first character belongs to no lexeme.
* `large`: it starts with a whole run of digits, and no signed 64-bit integer has its value. -/
inductive Refuses : Fault → List Char → Prop
  | stray {c : Char} {after : List Char} :
      c ∉ [' ', '\t', '\n', '\x0c', '\r'] → startsWord c = false → c.isDigit = false →
      c ∉ ['+', '-', '*', '/', '(', ')', '\x7b', '\x7d', ';', ',', '<', '>', '='] →
      (c = '!' → NotFirst (· == '=') after) → Refuses (.strayCharacter c) (c :: after)
  | large {digits after : List Char} :
      digits ≠ [] → (∀ d ∈ digits, d.isDigit) → NotFirst Char.isDigit after →
      9223372036854775807 < decimal digits → Refuses .numberTooLarge (digits ++ after)

/-! ## 2. Classes of characters -/

theorem isWordStart_eq : isWordStart = startsWord := by
  funext c
  rw [Bool.eq_iff_iff]
  simp only [isWordStart, startsWord, Char.isAlpha, Char.isUpper, Char.isLower, Bool.or_eq_true,
    Bool.and_eq_true, decide_eq_true_eq, beq_iff_eq, ge_iff_le, or_assoc]
  rfl

theorem isDigit_iff {c : Char} : c.isDigit ↔ '0' ≤ c ∧ c ≤ '9' := by
  simp only [Char.isDigit, Bool.and_eq_true, decide_eq_true_eq, ge_iff_le]
  rfl

theorem continuesWord_iff {c : Char} : continuesWord c ↔ startsWord c ∨ c.isDigit := by
  rw [isDigit_iff, continuesWord, decide_eq_true_iff]

theorem isWordPart_eq : isWordPart = continuesWord := by
  funext c
  rw [Bool.eq_iff_iff, continuesWord_iff, ← isWordStart_eq]
  simp only [isWordPart, isWordStart, Char.isAlphanum, Bool.or_eq_true]
  exact or_right_comm

theorem continuesWord_of_startsWord {c : Char} (h : startsWord c) : continuesWord c :=
  continuesWord_iff.mpr (.inl h)

theorem continuesWord_of_isDigit {c : Char} (h : c.isDigit) : continuesWord c :=
  continuesWord_iff.mpr (.inr h)

theorem startsWord_eq_false_of_isDigit {c : Char} (h : c.isDigit) : startsWord c = false := by
  cases hw : startsWord c with
  | false => rfl
  | true =>
    simp only [Char.isDigit, Bool.and_eq_true, decide_eq_true_eq, UInt32.le_iff_toNat_le,
      ge_iff_le] at h
    rw [← isWordStart_eq] at hw
    simp only [isWordStart, Char.isAlpha, Char.isUpper, Char.isLower, Bool.or_eq_true,
      Bool.and_eq_true, decide_eq_true_eq, beq_iff_eq, UInt32.le_iff_toNat_le, ge_iff_le] at hw
    -- A digit comes before all letters and the underscore.
    have hle : c.val.toNat ≤ 57 := h.2
    rcases hw with (hw | hw) | rfl
    · exact absurd (Nat.le_trans hw.1 hle) (by decide)
    · exact absurd (Nat.le_trans hw.1 hle) (by decide)
    · exact absurd hle (by decide)

/-- Word characters take up one byte. -/
theorem utf8Size_of_continuesWord {c : Char} (h : continuesWord c) : c.utf8Size = 1 := by
  rw [Char.utf8Size_eq_one_iff, UInt32.le_iff_toNat_le]
  change c.toNat ≤ 127
  rw [← isWordPart_eq] at h
  simp only [isWordPart, Char.isAlphanum, Char.isAlpha, Char.isUpper, Char.isLower, Char.isDigit,
    Bool.or_eq_true, Bool.and_eq_true, decide_eq_true_eq, beq_iff_eq, UInt32.le_iff_toNat_le,
    ge_iff_le] at h
  rcases h with ((h | h) | h) | rfl
  · exact Nat.le_trans h.2 (by decide)
  · exact Nat.le_trans h.2 (by decide)
  · exact Nat.le_trans h.2 (by decide)
  · decide

/-- A property of all characters of a list, checked one by one. -/
theorem forall_of_all {P : Char → Prop} [DecidablePred P] {cs : List Char}
    (h : cs.all fun c => decide (P c)) : ∀ c ∈ cs, P c :=
  fun c hc => of_decide_eq_true (List.all_eq_true.mp h c hc)

theorem isBlank_iff {c : Char} : isBlank c ↔ c ∈ [' ', '\t', '\n', '\x0c', '\r'] := by
  simp only [isBlank, Bool.or_eq_true, beq_iff_eq, List.mem_cons, List.not_mem_nil, or_false,
    or_assoc]

theorem isBlank_eq_false_iff {c : Char} :
    isBlank c = false ↔ c ∉ [' ', '\t', '\n', '\x0c', '\r'] := by
  rw [← isBlank_iff, Bool.not_eq_true]

/-- Blanks take up one byte, and are in no other class. -/
theorem isBlank_classes {c : Char} (h : isBlank c) :
    c.utf8Size = 1 ∧ continuesWord c = false ∧ c ∉ singles ∧ c ∉ pairLeads := by
  have hall : ∀ d ∈ [' ', '\t', '\n', '\x0c', '\r'],
        d.utf8Size = 1 ∧ continuesWord d = false ∧ d ∉ singles ∧ d ∉ pairLeads :=
    forall_of_all (by decide)
  exact hall c (isBlank_iff.mp h)

/-- Characters of punctuators take up one byte, and are in no other class. -/
theorem punctuator_classes {c : Char} (h : c ∈ singles ∨ c ∈ pairLeads) :
    c.utf8Size = 1 ∧ isBlank c = false ∧ continuesWord c = false := by
  have hall : ∀ d ∈ singles ++ pairLeads,
      d.utf8Size = 1 ∧ isBlank d = false ∧ continuesWord d = false := forall_of_all (by decide)
  exact hall c (List.mem_append.mpr h)

theorem not_isBlank_of_continuesWord {c : Char} (h : continuesWord c) : isBlank c = false := by
  cases hb : isBlank c with
  | false => rfl
  | true =>
    rw [(isBlank_classes hb).2.1] at h
    cases h

/-! ## 3. Whole runs -/

/-- A run of characters with the property `p` that no further one follows is taken whole. -/
theorem takeWhile_run {p : Char → Bool} {run after : List Char} (hrun : ∀ c ∈ run, p c)
    (hafter : NotFirst p after) : (run ++ after).takeWhile p = run := by
  rw [List.takeWhile_append_of_pos hrun]
  cases after with
  | nil => exact List.append_nil run
  | cons c after =>
    rw [List.takeWhile_cons_of_neg, List.append_nil]
    rw [hafter c after rfl]
    exact Bool.false_ne_true

theorem dropWhile_run {p : Char → Bool} {run after : List Char} (hrun : ∀ c ∈ run, p c)
    (hafter : NotFirst p after) : (run ++ after).dropWhile p = after := by
  rw [List.dropWhile_append_of_pos hrun]
  cases after with
  | nil => rfl
  | cons c after =>
    rw [List.dropWhile_cons_of_neg]
    rw [hafter c after rfl]
    exact Bool.false_ne_true

/-- Every text starts with a longest run of characters with the property `p`. -/
theorem exists_run (p : Char → Bool) (cs : List Char) :
    ∃ run after, cs = run ++ after ∧ (∀ c ∈ run, p c) ∧ NotFirst p after := by
  induction cs with
  | nil => exact ⟨[], [], rfl, List.forall_mem_nil _, fun _ _ h => (by cases h)⟩
  | cons c cs ih =>
    cases hc : p c with
    | true =>
      obtain ⟨run, after, rfl, hrun, hafter⟩ := ih
      exact ⟨c :: run, after, rfl, List.forall_mem_cons.mpr ⟨hc, hrun⟩, hafter⟩
    | false =>
      refine ⟨[], c :: cs, rfl, List.forall_mem_nil _, fun d rest h => ?_⟩
      cases h
      exact hc

/-! ## 4. Lexemes and blanks -/

/-- There is no blank in a lexeme. -/
theorem IsLexeme.not_isBlank {kind : TokenKind} {text after : List Char}
    (h : IsLexeme kind text after) : ∀ d ∈ text, isBlank d = false := by
  cases h with
  | keyword start parts _ _ | word start parts _ _ =>
    refine List.forall_mem_cons.mpr ⟨?_, fun d hd => not_isBlank_of_continuesWord (parts d hd)⟩
    exact not_isBlank_of_continuesWord (continuesWord_of_startsWord start)
  | number _ digits _ _ =>
    exact fun d hd => not_isBlank_of_continuesWord (continuesWord_of_isDigit (digits d hd))
  | pair mem =>
    exact List.forall_mem_cons.mpr
      ⟨(punctuator_classes (.inr mem)).2.1, List.forall_mem_singleton.mpr rfl⟩
  | single mem _ => exact List.forall_mem_singleton.mpr (punctuator_classes (.inl mem)).2.1

theorem IsLexeme.ne_nil {kind : TokenKind} {text after : List Char}
    (h : IsLexeme kind text after) : text ≠ [] := by
  cases h with
  | number hne _ _ _ => exact hne
  | keyword | word | pair | single => exact List.cons_ne_nil _ _

theorem notFirst_nil (p : Char → Bool) : NotFirst p [] := by
  intro c rest h
  cases h

theorem notFirst_cons {p : Char → Bool} {c : Char} {cs : List Char} (h : p c = false) :
    NotFirst p (c :: cs) := by
  intro d rest heq
  cases heq
  exact h

/-- What ends a lexeme is not looked at beyond the first character. A blank ends every one. -/
theorem IsLexeme.anew {kind : TokenKind} {text after after' : List Char}
    (h : IsLexeme kind text after)
    (ends : ∀ p : Char → Bool, (∀ c, isBlank c → p c = false) → NotFirst p after →
      NotFirst p after') : IsLexeme kind text after' := by
  have noWord : ∀ c, isBlank c → continuesWord c = false := fun c hc => (isBlank_classes hc).2.1
  have noDigit : ∀ c, isBlank c → c.isDigit = false := fun c hc =>
    Bool.eq_false_iff.mpr fun digit => absurd (continuesWord_of_isDigit digit)
      (Bool.eq_false_iff.mp (noWord c hc))
  have noEquals : ∀ c, isBlank c → (c == '=') = false := fun c hc =>
    beq_false_of_ne fun h => (isBlank_classes hc).2.2.1 (h ▸ by decide)
  cases h with
  | keyword start parts last mem => exact .keyword start parts (ends _ noWord last) mem
  | word start parts last mem => exact .word start parts (ends _ noWord last) mem
  | number ne digits last value => exact .number ne digits (ends _ noDigit last) value
  | pair mem => exact .pair mem
  | single mem last => exact .single mem fun short => ends _ noEquals (last short)

/-- A lexeme stays one if a blank is put behind what follows it, whatever comes then. -/
theorem IsLexeme.before_blank {kind : TokenKind} {text after : List Char} {c : Char}
    (h : IsLexeme kind text after) (blank : isBlank c) (cs : List Char) :
    IsLexeme kind text (after ++ c :: cs) := by
  refine h.anew fun p free last => ?_
  cases after with
  | nil => exact notFirst_cons (free c blank)
  | cons d after => exact notFirst_cons (last d after rfl)

theorem byteSize_of_forall {cs : List Char} (h : ∀ c ∈ cs, c.utf8Size = 1) :
    Text.byteSize cs = cs.length := by
  induction cs with
  | nil => rfl
  | cons c cs ih =>
    obtain ⟨hc, hcs⟩ := List.forall_mem_cons.mp h
    rw [Text.byteSize_cons, hc, ih hcs, List.length_cons, Nat.add_comm]

/-- A lexeme takes up one byte for each character. -/
theorem IsLexeme.byteSize_eq {kind : TokenKind} {text after : List Char}
    (h : IsLexeme kind text after) : Text.byteSize text = text.length := by
  refine byteSize_of_forall fun d hd => ?_
  cases h with
  | keyword hc hcs _ _ | word hc hcs _ _ =>
    rcases List.mem_cons.mp hd with rfl | hd
    · exact utf8Size_of_continuesWord (continuesWord_of_startsWord hc)
    · exact utf8Size_of_continuesWord (hcs d hd)
  | number _ hdigits _ _ =>
    exact utf8Size_of_continuesWord (continuesWord_of_isDigit (hdigits d hd))
  | pair hc =>
    rcases List.mem_cons.mp hd with rfl | hd
    · exact (punctuator_classes (.inr hc)).1
    · rw [List.mem_singleton.mp hd]
      decide
  | single hc _ =>
    rw [List.mem_singleton.mp hd]
    exact (punctuator_classes (.inl hc)).1

/-! ## 5. The lexeme in front -/

/-- A lexeme of two characters starts exactly where one of four characters stands before an
equals sign. -/
theorem pairLexeme?_cases (c : Char) (cs : List Char) :
    (c ∈ pairLeads ∧ ∃ rest, cs = '=' :: rest) ∨
      pairLexeme? c cs = none ∧ (c ∈ pairLeads → NotFirst (· == '=') cs) := by
  unfold pairLexeme?
  split
  · next rest =>
    by_cases hc : c ∈ pairLeads
    · exact .inl ⟨hc, rest, rfl⟩
    · rw [if_neg fun h => hc (List.contains_iff_mem.mp h)]
      exact .inr ⟨rfl, fun h => absurd h hc⟩
  · next hnot =>
    refine .inr ⟨rfl, fun _ d rest hcs => ?_⟩
    exact beq_false_of_ne fun hd => hnot rest (hd ▸ hcs)

theorem pairLexeme?_eq_none {c : Char} {cs : List Char}
    (h : c ∈ pairLeads → NotFirst (· == '=') cs) : pairLexeme? c cs = none := by
  rcases pairLexeme?_cases c cs with ⟨hc, rest, hcs⟩ | ⟨heq, -⟩
  · exact absurd (h hc '=' rest hcs) (by decide)
  · exact heq

theorem not_mem_pairLeads {c : Char} (h : continuesWord c) : c ∉ pairLeads := by
  intro hc
  rw [(punctuator_classes (.inr hc)).2.2] at h
  cases h

/-- Where no punctuator of two characters starts, the first character decides. -/
theorem lexeme_of_not_pair {c : Char} {cs : List Char} (h : pairLexeme? c cs = none) :
    lexeme c cs =
      if startsWord c then .ok (wordLexeme c cs)
      else if c.isDigit then numberLexeme c cs
      else if singles.contains c then .ok ⟨.punctuator, [c], cs, rfl, by simp⟩
      else .error (.strayCharacter c) := by
  unfold lexeme
  rw [h, isWordStart_eq]

theorem lexeme_of_startsWord {c : Char} {cs : List Char} (h : startsWord c) :
    lexeme c cs = .ok (wordLexeme c cs) := by
  have hpair := not_mem_pairLeads (continuesWord_of_startsWord h)
  rw [lexeme_of_not_pair (pairLexeme?_eq_none fun hc => absurd hc hpair), if_pos h]

theorem lexeme_of_isDigit {c : Char} {cs : List Char} (h : c.isDigit) :
    lexeme c cs = numberLexeme c cs := by
  have hpair := not_mem_pairLeads (continuesWord_of_isDigit h)
  rw [lexeme_of_not_pair (pairLexeme?_eq_none fun hc => absurd hc hpair),
    startsWord_eq_false_of_isDigit h, if_neg Bool.false_ne_true, if_pos h]

theorem lexeme_of_mem_pairLeads {c : Char} {cs : List Char} (h : c ∈ pairLeads) :
    lexeme c ('=' :: cs) = .ok ⟨.punctuator, [c, '='], cs, rfl, List.cons_ne_nil _ _⟩ := by
  have hpair : pairLexeme? c ('=' :: cs) =
      some ⟨.punctuator, [c, '='], cs, rfl, List.cons_ne_nil _ _⟩ :=
    if_pos (List.contains_iff_mem.mpr h)
  unfold lexeme
  rw [hpair]

/-- A punctuator of one character is taken if it does not begin one of two. -/
theorem lexeme_of_mem_singles {c : Char} {cs : List Char} (h : c ∈ singles)
    (hlast : c ∈ ['=', '<', '>'] → NotFirst (· == '=') cs) :
    lexeme c cs = .ok ⟨.punctuator, [c], cs, rfl, List.cons_ne_nil _ _⟩ := by
  have hpair : c ∈ pairLeads → c ∈ ['=', '<', '>'] := by
    have hall : ∀ d ∈ singles, d ∈ pairLeads → d ∈ ['=', '<', '>'] := forall_of_all (by decide)
    exact hall c h
  have hpart := (punctuator_classes (.inl h)).2.2
  have hstart : ¬ startsWord c := fun hc => by
    rw [continuesWord_of_startsWord hc] at hpart
    cases hpart
  have hdigit : ¬ c.isDigit := fun hc => by
    rw [continuesWord_of_isDigit hc] at hpart
    cases hpart
  rw [lexeme_of_not_pair (pairLexeme?_eq_none fun hc => hlast (hpair hc)), if_neg hstart,
    if_neg hdigit, if_pos (List.contains_iff_mem.mpr h)]

theorem lexeme_of_stray {c : Char} {cs : List Char} (hstart : startsWord c = false)
    (hdigit : c.isDigit = false) (hsingle : c ∉ singles)
    (hbang : c = '!' → NotFirst (· == '=') cs) : lexeme c cs = .error (.strayCharacter c) := by
  have hpair : c ∈ pairLeads → c = '!' := by
    have hall : ∀ d ∈ pairLeads, d ∈ singles ∨ d = '!' := forall_of_all (by decide)
    exact fun hc => (hall c hc).resolve_left hsingle
  rw [lexeme_of_not_pair (pairLexeme?_eq_none fun hc => hbang (hpair hc)), hstart, hdigit,
    if_neg Bool.false_ne_true, if_neg Bool.false_ne_true,
    if_neg fun h => hsingle (List.contains_iff_mem.mp h)]

/-- The value of digits is what they write. -/
theorem value_eq_decimal (ds : List Char) : Decimal.value ds = decimal ds := by
  suffices h : ∀ number, ds.foldl (fun number d => 10 * number + Decimal.digitValue d) number =
      number * 10 ^ ds.length + decimal ds by
    exact (h 0).trans (by rw [Nat.zero_mul, Nat.zero_add])
  induction ds with
  | nil => exact fun number => (Nat.mul_one number).symm
  | cons d ds ih =>
    intro number
    rw [List.foldl_cons, ih, List.length_cons, decimal, Decimal.digitValue, Nat.pow_succ]
    ring

/-- A word is taken whole. -/
theorem wordLexeme_run {c : Char} {word after : List Char} (hparts : ∀ d ∈ word, continuesWord d)
    (hafter : NotFirst continuesWord after) :
    (wordLexeme c (word ++ after)).kind = kindOfWord (String.ofList (c :: word)) ∧
      (wordLexeme c (word ++ after)).text = c :: word ∧
      (wordLexeme c (word ++ after)).rest = after := by
  unfold wordLexeme
  dsimp only
  rw [isWordPart_eq, takeWhile_run hparts hafter]
  exact ⟨rfl, rfl, dropWhile_run hparts hafter⟩

/-- A number is taken whole, unless its value is too large. -/
theorem numberLexeme_run {c : Char} {digits after : List Char} (hdigits : ∀ d ∈ digits, d.isDigit)
    (hafter : NotFirst Char.isDigit after) :
    (decimal (c :: digits) ≤ maxLiteral →
        ∃ l, numberLexeme c (digits ++ after) = .ok l ∧
          l.kind = .num (some (Int64.ofNat (decimal (c :: digits)))) ∧
          l.text = c :: digits ∧ l.rest = after) ∧
      (maxLiteral < decimal (c :: digits) →
        numberLexeme c (digits ++ after) = .error .numberTooLarge) := by
  have hrun := takeWhile_run hdigits hafter
  have hrest := dropWhile_run hdigits hafter
  unfold numberLexeme
  dsimp only
  rw [value_eq_decimal]
  constructor
  · intro hle
    rw [if_pos (hrun.symm ▸ hle)]
    exact ⟨_, rfl, by dsimp only; rw [hrun], by dsimp only; rw [hrun], hrest⟩
  · intro hlt
    exact if_neg (hrun.symm ▸ Nat.not_le_of_lt hlt)

/-- The value of a literal that fits is what its digits write. -/
theorem ofNat_value {v : Nat} {value : Int64} (h : value.toInt = v) :
    v ≤ maxLiteral ∧ Int64.ofNat v = value := by
  have hlt : v < 2 ^ 63 := by
    have := value.toInt_lt
    rw [h] at this
    exact Int.ofNat_lt.mp this
  exact ⟨Nat.le_of_lt_succ hlt, Int64.toInt_inj.mp ((Int64.toInt_ofNat_of_lt hlt).trans h.symm)⟩

/-! ## 6. What the scanner takes -/

/-- A word that is taken whole is a keyword or an identifier. -/
theorem isLexeme_kindOfWord {c : Char} {word after : List Char} (hc : startsWord c)
    (hparts : ∀ d ∈ word, continuesWord d) (hafter : NotFirst continuesWord after) :
    IsLexeme (kindOfWord (String.ofList (c :: word))) (c :: word) after := by
  unfold kindOfWord
  by_cases hkey : String.ofList (c :: word) ∈ keywords
  · rw [if_pos (List.contains_iff_mem.mpr hkey)]
    exact .keyword hc hparts hafter hkey
  · rw [if_neg fun h => hkey (List.contains_iff_mem.mp h)]
    exact .word hc hparts hafter hkey

/-- At every character the scanner takes a lexeme, or it objects and stands at a blank or where
no lexeme starts. -/
theorem lexeme_cases (c : Char) (cs : List Char) :
    (∃ l, lexeme c cs = .ok l ∧ IsLexeme l.kind l.text l.rest) ∨
      ∃ fault, lexeme c cs = .error fault ∧ (isBlank c = false → Refuses fault (c :: cs)) := by
  rcases pairLexeme?_cases c cs with ⟨hc, rest, rfl⟩ | ⟨-, hpair⟩
  · exact .inl ⟨_, lexeme_of_mem_pairLeads hc, .pair hc⟩
  cases hword : startsWord c with
  | true =>
    obtain ⟨word, after, rfl, hparts, hafter⟩ := exists_run continuesWord cs
    obtain ⟨hkind, htext, hrest⟩ := wordLexeme_run (c := c) hparts hafter
    refine .inl ⟨_, lexeme_of_startsWord hword, ?_⟩
    rw [hkind, htext, hrest]
    exact isLexeme_kindOfWord hword hparts hafter
  | false =>
    cases hdigit : c.isDigit with
    | true =>
      obtain ⟨digits, after, rfl, hdigits, hafter⟩ := exists_run Char.isDigit cs
      have hall : ∀ d ∈ c :: digits, d.isDigit := List.forall_mem_cons.mpr ⟨hdigit, hdigits⟩
      obtain ⟨hfits, hlarge⟩ := numberLexeme_run (c := c) hdigits hafter
      rw [lexeme_of_isDigit hdigit]
      rcases Nat.lt_or_ge maxLiteral (decimal (c :: digits)) with hlt | hle
      · exact .inr ⟨_, hlarge hlt, fun _ => .large (List.cons_ne_nil _ _) hall hafter hlt⟩
      · obtain ⟨l, heq, hkind, htext, hrest⟩ := hfits hle
        refine .inl ⟨l, heq, ?_⟩
        rw [hkind, htext, hrest]
        refine .number (List.cons_ne_nil _ _) hall hafter ?_
        exact Int64.toInt_ofNat_of_lt (Nat.lt_of_le_of_lt hle (by decide))
    | false =>
      by_cases hsingle : c ∈ singles
      · have hsub : ∀ d ∈ ['=', '<', '>'], d ∈ pairLeads := forall_of_all (by decide)
        have hlast : c ∈ ['=', '<', '>'] → NotFirst (· == '=') cs := fun hc => hpair (hsub c hc)
        exact .inl ⟨_, lexeme_of_mem_singles hsingle hlast, .single hsingle hlast⟩
      · have hbang : c = '!' → NotFirst (· == '=') cs := by
          rintro rfl
          exact hpair (by decide)
        exact .inr ⟨_, lexeme_of_stray hword hdigit hsingle hbang,
          fun hblank => .stray (isBlank_eq_false_iff.mp hblank) hword hdigit hsingle hbang⟩

/-- What the scanner takes is a lexeme. -/
theorem isLexeme_of_lexeme {c : Char} {cs : List Char} {l : Lexeme (c :: cs)}
    (h : lexeme c cs = .ok l) : IsLexeme l.kind l.text l.rest := by
  rcases lexeme_cases c cs with ⟨l', heq, hl⟩ | ⟨fault, heq, -⟩ <;> rw [h] at heq <;> cases heq
  exact hl

/-- Where the scanner objects to a character that is no blank, no lexeme starts. -/
theorem refuses_of_lexeme {c : Char} {cs : List Char} {fault : Fault} (hblank : isBlank c = false)
    (h : lexeme c cs = .error fault) : Refuses fault (c :: cs) := by
  rcases lexeme_cases c cs with ⟨l, heq, -⟩ | ⟨fault', heq, hrefuses⟩ <;> rw [h] at heq <;>
    cases heq
  exact hrefuses hblank

/-- The scanner takes every lexeme that it is at. -/
theorem IsLexeme.exists_lexeme {kind : TokenKind} {text after : List Char} {c : Char}
    {cs : List Char} (h : IsLexeme kind text after) (hinput : text ++ after = c :: cs) :
    ∃ l : Lexeme (c :: cs), lexeme c cs = .ok l ∧ l.kind = kind ∧ l.text = text ∧
      l.rest = after := by
  cases h with
  | @keyword _ word _ hc hparts hafter hkey =>
    cases hinput
    obtain ⟨hkind, htext, hrest⟩ := wordLexeme_run hparts hafter
    refine ⟨_, lexeme_of_startsWord hc, hkind.trans ?_, htext, hrest⟩
    exact if_pos (List.contains_iff_mem.mpr hkey)
  | @word _ word _ hc hparts hafter hkey =>
    cases hinput
    obtain ⟨hkind, htext, hrest⟩ := wordLexeme_run hparts hafter
    refine ⟨_, lexeme_of_startsWord hc, hkind.trans ?_, htext, hrest⟩
    exact if_neg fun h => hkey (List.contains_iff_mem.mp h)
  | number hne hdigits hafter hvalue =>
    cases text with
    | nil => exact absurd rfl hne
    | cons d digits =>
      cases hinput
      obtain ⟨hd, hds⟩ := List.forall_mem_cons.mp hdigits
      obtain ⟨hle, rfl⟩ := ofNat_value hvalue
      rw [lexeme_of_isDigit hd]
      exact (numberLexeme_run hds hafter).1 hle
  | @pair d _ hc =>
    have hinput : d :: '=' :: after = c :: cs := hinput
    cases hinput
    exact ⟨_, lexeme_of_mem_pairLeads hc, rfl, rfl, rfl⟩
  | @single d _ hc hlast =>
    have hinput : d :: after = c :: cs := hinput
    cases hinput
    exact ⟨_, lexeme_of_mem_singles hc hlast, rfl, rfl, rfl⟩

/-- Where no lexeme starts, the scanner is at no blank and objects. -/
theorem Refuses.lexeme_eq {fault : Fault} {c : Char} {cs input : List Char}
    (h : Refuses fault input) (hinput : input = c :: cs) :
    isBlank c = false ∧ lexeme c cs = .error fault := by
  cases h with
  | stray hblank hstart hdigit hsingle hbang =>
    cases hinput
    exact ⟨isBlank_eq_false_iff.mpr hblank, lexeme_of_stray hstart hdigit hsingle hbang⟩
  | @large digits after hne hdigits hafter hlarge =>
    cases digits with
    | nil => exact absurd rfl hne
    | cons d digits =>
      cases hinput
      obtain ⟨hd, hds⟩ := List.forall_mem_cons.mp hdigits
      refine ⟨not_isBlank_of_continuesWord (continuesWord_of_isDigit hd), ?_⟩
      rw [lexeme_of_isDigit hd]
      exact (numberLexeme_run hds hafter).2 hlarge

end Token

end StackCompiler
