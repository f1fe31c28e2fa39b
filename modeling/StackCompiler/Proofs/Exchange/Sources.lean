import Mathlib
import StackCompiler.Proofs.Exchange.Comparisons

/-!
# Sources with a comparison turned around

A comparison `a > b` in a source may be written `(b) < (a)`, and `a >= b` may be written
`(b) <= (a)`, where `a` and `b` are the texts of its sides. Operands are evaluated in the same order
as before, since code for the right side of `>` always comes first. But slots are given out in the
order of the text. So the variables that come up first in the comparison get other slots.

Main statement: a source with a comparison turned around is compiled to the same listing up to the
slots of one function, and to the very same listing if no variable comes up first in the comparison
(`compileWith_turned`).
-/

namespace StackCompiler

open Token (spread Separated AllBlank Fuses)

/-! ## 1. Excerpts -/

/-- Tokens with the blanks behind them, the last token apart. -/
structure Stretch where
  others : List (Token × List Char)
  last : Token
  gap : List Char

namespace Stretch

/-- All tokens with the blanks behind them. -/
def parts (x : Stretch) : List (Token × List Char) :=
  x.others ++ [(x.last, x.gap)]

/-- The tokens. -/
def tokens (x : Stretch) : List Token :=
  x.others.map Prod.fst ++ [x.last]

/-- The text from the first character of the first token to the last character of the last one. -/
def text (x : Stretch) : List Char :=
  spread x.others ++ x.last.chars

theorem spread_parts (x : Stretch) : spread x.parts = x.text ++ x.gap := by
  rw [parts, Token.spread_append, text, Token.spread_cons]
  simp

theorem map_fst_parts (x : Stretch) : x.parts.map Prod.fst = x.tokens := by
  rw [parts, List.map_append]
  rfl

theorem exists_parts {parts : List (Token × List Char)} (ne : parts ≠ []) :
    ∃ x : Stretch, x.parts = parts :=
  ⟨⟨parts.dropLast, (parts.getLast ne).1, (parts.getLast ne).2⟩, List.dropLast_concat_getLast ne⟩

end Stretch

/-- The parts of a text with a comparison in it: the blanks it starts with, the functions before the
one with the comparison, the tokens of this function before the comparison, the comparison itself,
the tokens of the function behind it, and the other functions. -/
structure Excerpt where
  lead : List Char
  earlier : List (Token × List Char)
  before : List (Token × List Char)
  left : Stretch
  sign : Token
  gap : List Char
  right : Stretch
  after : List (Token × List Char)
  later : List (Token × List Char)

namespace Excerpt

/-- All tokens of the text. -/
def parts (x : Excerpt) : List (Token × List Char) :=
  x.earlier ++ (x.before ++ (x.left.parts ++ (x.sign, x.gap) :: x.right.parts ++ x.after) ++
    x.later)

/-- The text before the comparison. -/
def front (x : Excerpt) : List Char :=
  x.lead ++ spread (x.earlier ++ x.before)

/-- The text of the comparison. -/
def text (x : Excerpt) : List Char :=
  x.left.text ++ x.left.gap ++ x.sign.chars ++ x.gap ++ x.right.text

/-- The text behind the comparison. -/
def back (x : Excerpt) : List Char :=
  x.right.gap ++ spread (x.after ++ x.later)

/-- The text with the right side of the comparison in parentheses, the sign `s'`, and the left side
in parentheses in the place of the comparison. -/
def turned (x : Excerpt) (s' : String) : String :=
  String.ofList (x.front ++ ("(".toList ++ x.right.text ++ ") ".toList ++ s'.toList ++
    " (".toList ++ x.left.text ++ ")".toList) ++ x.back)

theorem spread_parts (x : Excerpt) : x.lead ++ spread x.parts = x.front ++ x.text ++ x.back := by
  unfold parts front text back
  simp only [Token.spread_append, Token.spread_cons, Stretch.spread_parts, List.append_assoc]

/-- The variables of the function before the comparison, its parameters included. -/
def known (x : Excerpt) : List String :=
  Grammar.variableNames (x.before.map Prod.fst)

/-- The variables of the comparison. -/
def mentioned (x : Excerpt) : List String :=
  Grammar.variableNames (x.left.tokens ++ x.sign :: x.right.tokens)

end Excerpt

/-- The excerpt `x` shows a comparison in the source of the program `p`: all of its left side and
all of its right side, as they are read. If it is turned around then its sign is `s'`. -/
structure IsComparison (source : String) (p : Program) (x : Excerpt) (s' : String) : Prop where
  written : source.toList = x.lead ++ spread x.parts
  front : ∀ c ∈ x.lead, Token.isBlank c
  blank : AllBlank x.parts
  scanned : Token.scan source = .ok (x.parts.map Prod.fst ++ [Token.endOf source])
  inProgram : ∃ fs f gs, p = fs ++ f :: gs ∧ Grammar.Program (x.earlier.map Prod.fst) fs ∧
    Grammar.ComparesIn f (x.before.map Prod.fst) x.left.tokens x.sign x.right.tokens
      (x.after.map Prod.fst) s' ∧
    Grammar.Program (x.later.map Prod.fst) gs

section Excerpts

variable {source : String} {p : Program} {x : Excerpt} {s' : String}

theorem IsComparison.toList_eq (h : IsComparison source p x s') :
    source.toList = x.front ++ x.text ++ x.back := by
  rw [h.written, x.spread_parts]

theorem IsComparison.separated (h : IsComparison source p x s') : Separated x.parts := by
  have same : String.ofList (x.lead ++ spread x.parts) = source := by
    rw [← h.written, String.ofList_toList]
  refine (Token.scan_spread h.scanned rfl h.front h.blank).mp ⟨_, ?_, rfl⟩
  rw [same]
  exact h.scanned

/-- Every `>` and every `>=` in a source is the sign of a comparison. -/
theorem exists_isComparison {tokens : List Token} (read : Program.ofSource source = .ok p)
    (scanned : Token.scan source = .ok tokens) {t : Token} (mem : t ∈ tokens)
    (greater : t.IsGreater) : ∃ x s', IsComparison source p x s' ∧ x.sign = t := by
  obtain ⟨lead, parts, isSpread, same⟩ := Token.exists_isSpread scanned
  obtain ⟨whole, -, exact_⟩ := Program.ofSource_exact scanned
  obtain ⟨derivable, -, -⟩ := (exact_ p).mp read
  rw [← List.append_cancel_right (same.symm.trans whole)] at derivable
  have inside : t ∈ parts.map Prod.fst := by
    rw [same] at mem
    refine (List.mem_append.mp mem).resolve_right fun last => ?_
    have kind := greater.kind_eq
    rw [List.mem_singleton.mp last] at kind
    cases kind
  obtain ⟨fs, f, gs, es, bs, ls, rs, as, zs, s', rfl, hfs, compares, hgs, tokens_eq⟩ :=
    derivable.compares greater inside
  obtain ⟨earlier, rest, rfl, rfl, fromHere⟩ := List.map_eq_append_iff.mp tokens_eq
  obtain ⟨function, later, rfl, ofFunction, rfl⟩ := List.map_eq_append_iff.mp fromHere
  obtain ⟨before, rest, rfl, rfl, fromLeft⟩ := List.map_eq_append_iff.mp ofFunction
  obtain ⟨comparison, after, rfl, ofBoth, rfl⟩ := List.map_eq_append_iff.mp fromLeft
  obtain ⟨left, rest, rfl, rfl, fromSign⟩ := List.map_eq_append_iff.mp ofBoth
  obtain ⟨⟨sign, gap⟩, right, rfl, rfl, rfl⟩ := List.map_eq_cons_iff.mp fromSign
  have sides : left ≠ [] ∧ right ≠ [] := by
    cases compares with
    | intro _ ha _ _ hb =>
      obtain ⟨_, _, left_eq⟩ := ha.exists_first
      obtain ⟨_, _, right_eq⟩ := hb.exists_first
      constructor
      · rintro rfl
        cases left_eq
      · rintro rfl
        cases right_eq
  obtain ⟨left, rfl⟩ := Stretch.exists_parts sides.1
  obtain ⟨right, rfl⟩ := Stretch.exists_parts sides.2
  rw [left.map_fst_parts, right.map_fst_parts] at compares
  refine ⟨⟨lead, earlier, before, left, sign, gap, right, after, later⟩, s', ?_, rfl⟩
  exact ⟨isSpread.eq, isSpread.front, isSpread.blank, scanned.trans (congrArg _ same),
    fs, f, gs, rfl, hfs, compares, hgs⟩

end Excerpts

/-! ## 2. Tokens of the text turned around -/

namespace Token

/-- The punctuator that is written `s`, at a place of its own. -/
def signAt (s : String) (loc : Nat) : Token :=
  { sign s with loc := loc }

theorem isPunctuator_signAt (s : String) (loc : Nat) : (signAt s loc).isPunctuator s :=
  isPunctuator_iff.mpr ⟨rfl, rfl⟩

/-- A parenthesis fuses with no token before or behind it. -/
theorem not_fuses_signAt {s : String} (paren : s = "(" ∨ s = ")") (loc : Nat) (t : Token) :
    ¬ Fuses (signAt s loc) t ∧ ¬ Fuses t (signAt s loc) := by
  constructor
  · rintro (⟨kind | kind, -⟩ | ⟨kind, -⟩ | @⟨c, -, single, mem, -⟩)
    · cases kind
    · cases kind
    · cases kind
    · rcases paren with rfl | rfl
      · cases single
        exact absurd mem (by decide)
      · cases single
        exact absurd mem (by decide)
  · rintro (⟨-, kind | kind | ⟨_, kind⟩⟩ | ⟨-, kind⟩ | ⟨-, -, -, equals⟩)
    · cases kind
    · cases kind
    · cases kind
    · cases kind
    · rcases paren with rfl | rfl
      · cases equals
      · cases equals

theorem spelled_signAt {s : String} (h : s ∈ ["(", ")", "<", "<="]) (loc : Nat) :
    (signAt s loc).Spelled := by
  simp only [List.mem_cons, List.not_mem_nil, or_false] at h
  rcases h with rfl | rfl | rfl | rfl
  · exact spelled_sign (List.mem_cons_self)
  · exact spelled_sign (List.mem_cons_of_mem _ List.mem_cons_self)
  · exact ⟨['<'], rfl, .single (by decide) fun _ => notFirst_nil _⟩
  · exact ⟨['<', '='], rfl, .pair (by decide)⟩

variable {xs ys : List (Token × List Char)} {t : Token} {gap : List Char}

theorem separated_append : Separated (xs ++ ys) ↔ Separated xs ∧ Separated ys ∧
    ∀ x ∈ xs.getLast?, ∀ y ∈ ys.head?, Fuses x.1 y.1 → x.2 ≠ [] :=
  List.isChain_append

/-- What stands behind the last token does not matter for the tokens before it. -/
theorem Separated.last (h : Separated (xs ++ [(t, gap)])) (gap' : List Char) :
    Separated (xs ++ [(t, gap')]) := by
  obtain ⟨others, -, apart⟩ := separated_append.mp h
  refine separated_append.mpr ⟨others, .singleton _, fun x hx y hy => ?_⟩
  rw [List.head?_cons, Option.mem_some_iff] at hy
  exact hy ▸ apart x hx (t, gap) rfl

/-- A token that fuses with no token before it. -/
theorem Separated.append (hx : Separated xs) (hy : Separated ((t, gap) :: ys))
    (apart : ∀ u, ¬ Fuses u t) : Separated (xs ++ (t, gap) :: ys) := by
  refine separated_append.mpr ⟨hx, hy, fun x _ y hy fuses => ?_⟩
  rw [List.head?_cons, Option.mem_some_iff] at hy
  rw [← hy] at fuses
  exact absurd fuses (apart x.1)

theorem Separated.cons (hy : Separated ys) (apart : ∀ u, Fuses t u → gap ≠ []) :
    Separated ((t, gap) :: ys) :=
  List.isChain_cons.mpr ⟨fun y _ => apart y.1, hy⟩

end Token

namespace Excerpt

/-- The new punctuators of the text turned around, at the places from `n` on. -/
def brackets (s' : String) (n : Nat) : Grammar.Brackets s' where
  l := .signAt "(" n
  r := .signAt ")" (n + 1)
  sign := .signAt s' (n + 2)
  l' := .signAt "(" (n + 3)
  r' := .signAt ")" (n + 4)
  hl := Token.isPunctuator_signAt "(" n
  hr := Token.isPunctuator_signAt ")" (n + 1)
  hsign := Token.isPunctuator_signAt s' (n + 2)
  hl' := Token.isPunctuator_signAt "(" (n + 3)
  hr' := Token.isPunctuator_signAt ")" (n + 4)

/-- The new punctuators in the order in which they are written. -/
def signs (s' : String) (n : Nat) : List Token :=
  [.signAt "(" n, .signAt ")" (n + 1), .signAt s' (n + 2), .signAt "(" (n + 3),
    .signAt ")" (n + 4)]

/-- The tokens of the comparison turned around, with the blanks behind them. -/
def turnedComparison (x : Excerpt) (s' : String) (n : Nat) : List (Token × List Char) :=
  (.signAt "(" n, []) :: (x.right.others ++ [(x.right.last, [])] ++
    (.signAt ")" (n + 1), [' ']) :: (.signAt s' (n + 2), [' ']) :: (.signAt "(" (n + 3), []) ::
      (x.left.others ++ [(x.left.last, [])] ++ [(.signAt ")" (n + 4), x.right.gap)]))

/-- All tokens of the text turned around. -/
def turnedParts (x : Excerpt) (s' : String) (n : Nat) : List (Token × List Char) :=
  x.earlier ++ (x.before ++ (x.turnedComparison s' n ++ x.after) ++ x.later)

variable {x : Excerpt} {s' : String} {n : Nat}

theorem ofList_spread_turnedParts (x : Excerpt) (s' : String) (n : Nat) :
    String.ofList (x.lead ++ spread (x.turnedParts s' n)) = x.turned s' := by
  have chars (s : String) (loc : Nat) : (Token.signAt s loc).chars = s.toList := rfl
  unfold turned turnedParts turnedComparison front back
  simp [Token.spread_append, Token.spread_cons, Stretch.text, chars]

/-- The tokens of the comparison turned around. -/
theorem map_fst_turnedComparison (x : Excerpt) (s' : String) (n : Nat) :
    (x.turnedComparison s' n).map Prod.fst =
      (brackets s' n).turned x.left.tokens x.right.tokens := by
  simp [turnedComparison, Grammar.Brackets.turned, brackets, Stretch.tokens]

theorem map_fst_turnedParts (x : Excerpt) (s' : String) (n : Nat) :
    (x.turnedParts s' n).map Prod.fst = x.earlier.map Prod.fst ++ (x.before.map Prod.fst ++
      ((x.turnedComparison s' n).map Prod.fst ++ x.after.map Prod.fst) ++
        x.later.map Prod.fst) := by
  simp [turnedParts]

/-- The tokens of the turned text are those of the text without its sign, and five new ones. -/
theorem perm_turnedParts (x : Excerpt) (s' : String) (n : Nat) :
    (x.sign :: (x.turnedParts s' n).map Prod.fst).Perm (signs s' n ++ x.parts.map Prod.fst) := by
  rw [map_fst_turnedParts, map_fst_turnedComparison, Grammar.Brackets.turned, parts, signs]
  simp only [brackets, List.map_append, List.map_cons, Stretch.map_fst_parts]
  rw [List.perm_iff_count]
  intro t
  simp only [List.count_append, List.count_cons, List.count_nil]
  omega

theorem le_loc_of_mem_signs {t : Token} (h : t ∈ signs s' n) : n ≤ t.loc := by
  simp only [signs, List.mem_cons, List.not_mem_nil, or_false] at h
  rcases h with rfl | rfl | rfl | rfl | rfl <;> simp [Token.signAt]

theorem spelled_of_mem_signs (sign : s' ∈ ["<", "<="]) {t : Token} (h : t ∈ signs s' n) :
    t.Spelled := by
  have sub : ["<", "<="] ⊆ ["(", ")", "<", "<="] := by decide
  simp only [signs, List.mem_cons, List.not_mem_nil, or_false] at h
  rcases h with rfl | rfl | rfl | rfl | rfl
  · exact Token.spelled_signAt (by decide) _
  · exact Token.spelled_signAt (by decide) _
  · exact Token.spelled_signAt (sub sign) _
  · exact Token.spelled_signAt (by decide) _
  · exact Token.spelled_signAt (by decide) _

/-- New tokens that stand behind all others make no two tokens stand at one place. -/
theorem pairwise_turnedParts (distinct : (x.parts.map Prod.fst).Pairwise fun t u => t.loc ≠ u.loc)
    (fresh : ∀ t ∈ x.parts.map Prod.fst, t.loc < n) :
    ((x.turnedParts s' n).map Prod.fst).Pairwise fun t u => t.loc ≠ u.loc := by
  have all : (signs s' n ++ x.parts.map Prod.fst).Pairwise fun t u => t.loc ≠ u.loc := by
    refine List.pairwise_append.mpr ⟨by simp [signs, Token.signAt], distinct, fun t ht u hu => ?_⟩
    exact Nat.ne_of_gt ((fresh u hu).trans_le (le_loc_of_mem_signs ht))
  have both := ((x.perm_turnedParts s' n).pairwise_iff fun h => h.symm).mpr all
  exact (List.pairwise_cons.mp both).2

theorem allBlank_turnedParts (h : AllBlank x.parts) : AllBlank (x.turnedParts s' n) := by
  unfold AllBlank parts Stretch.parts at h
  simp only [List.forall_mem_append, List.forall_mem_cons] at h
  obtain ⟨earlier, ⟨before, ⟨⟨left, -⟩, -, right, last, -⟩, after⟩, later⟩ := h
  have space : Token.isBlank ' ' ∧ ∀ c ∈ ([] : List Char), Token.isBlank c :=
    ⟨rfl, List.forall_mem_nil _⟩
  have none : ∀ c ∈ ([] : List Char), Token.isBlank c := List.forall_mem_nil _
  unfold AllBlank turnedParts turnedComparison
  simp only [List.forall_mem_append, List.forall_mem_cons]
  exact ⟨earlier, ⟨before, ⟨none, ⟨right, none, List.forall_mem_nil _⟩, space, space, none,
    ⟨left, none, List.forall_mem_nil _⟩, last, List.forall_mem_nil _⟩, after⟩, later⟩

theorem spelled_turnedParts (h : ∀ t ∈ x.parts.map Prod.fst, t.Spelled) (sign : s' ∈ ["<", "<="]) :
    ∀ part ∈ x.turnedParts s' n, part.1.Spelled := by
  refine List.forall_mem_map.mp fun t ht => ?_
  have mem := (x.perm_turnedParts s' n).mem_iff.mp (List.mem_cons_of_mem _ ht)
  exact (List.mem_append.mp mem).elim (spelled_of_mem_signs sign) (h t)

/-- No neighbours fuse in the turned text that did not fuse before. -/
theorem separated_turnedParts (h : Separated x.parts) : Separated (x.turnedParts s' n) := by
  have opens := Token.not_fuses_signAt (.inl rfl : "(" = "(" ∨ "(" = ")")
  have closes := Token.not_fuses_signAt (.inr rfl : ")" = "(" ∨ ")" = ")")
  -- the text is cut before and behind each side
  have whole : x.parts = (x.earlier ++ x.before) ++
      ((x.left.others ++ [(x.left.last, x.left.gap)]) ++ ((x.sign, x.gap) ::
        ((x.right.others ++ [(x.right.last, x.right.gap)]) ++ (x.after ++ x.later)))) := by
    simp [parts, Stretch.parts]
  rw [whole] at h
  obtain ⟨front, rest, -⟩ := Token.separated_append.mp h
  obtain ⟨left, rest, -⟩ := Token.separated_append.mp rest
  obtain ⟨-, rest⟩ := List.isChain_cons.mp rest
  obtain ⟨right, back, -⟩ := Token.separated_append.mp rest
  have turned : x.turnedParts s' n = (x.earlier ++ x.before) ++ (.signAt "(" n, []) ::
      ((x.right.others ++ [(x.right.last, [])]) ++ (.signAt ")" (n + 1), [' ']) ::
        (.signAt s' (n + 2), [' ']) :: (.signAt "(" (n + 3), []) ::
          ((x.left.others ++ [(x.left.last, [])]) ++ (.signAt ")" (n + 4), x.right.gap) ::
            (x.after ++ x.later))) := by
    simp [turnedParts, turnedComparison]
  rw [turned]
  have last : Separated ((.signAt ")" (n + 4), x.right.gap) :: (x.after ++ x.later)) :=
    .cons back fun u fuses => absurd fuses (closes _ u).1
  have second := (left.last []).append last fun u => (closes _ u).2
  have third : Separated ((.signAt "(" (n + 3), []) :: _) :=
    .cons second fun u fuses => absurd fuses (opens _ u).1
  have sign : Separated ((.signAt s' (n + 2), [' ']) :: _) := .cons third fun _ _ => by simp
  have fourth : Separated ((.signAt ")" (n + 1), [' ']) :: _) := .cons sign fun _ _ => by simp
  have first := (right.last []).append fourth fun u => (closes _ u).2
  exact .append front (.cons first fun u fuses => absurd fuses (opens _ u).1) fun u => (opens _ u).2

end Excerpt

/-! ## 3. Compilation -/

section Compilation

variable {source : String} {p : Program} {x : Excerpt} {s' : String}

theorem IsComparison.mem_sign (h : IsComparison source p x s') : s' ∈ ["<", "<="] := by
  obtain ⟨_, _, _, -, -, compares, -⟩ := h.inProgram
  cases compares with
  | intro _ _ _ mirror _ => exact mirror.mem

/-- The tokens of the text turned around, at places of their own. -/
theorem IsComparison.exists_scan (h : IsComparison source p x s') :
    ∃ n body, Token.scan (x.turned s') = .ok (body ++ [Token.endOf (x.turned s')]) ∧
      body.map Token.content = ((x.turnedParts s' n).map Prod.fst).map Token.content ∧
      ((x.turnedParts s' n).map Prod.fst).Pairwise fun t u => t.loc ≠ u.loc := by
  obtain ⟨n, fresh⟩ := ((x.parts.map Prod.fst).map Token.loc).toFinset.exists_nat_subset_range
  have below : ∀ t ∈ x.parts.map Prod.fst, t.loc < n := fun t ht =>
    Finset.mem_range.mp (fresh (List.mem_toFinset.mpr (List.mem_map_of_mem ht)))
  have spelled := List.forall_mem_map.mpr (Token.spelled_of_scan h.scanned rfl)
  obtain ⟨body, scanned, contents⟩ := Token.exists_scan_spread
    (Excerpt.spelled_turnedParts spelled h.mem_sign) h.front (Excerpt.allBlank_turnedParts h.blank)
    (@Excerpt.separated_turnedParts x s' n h.separated)
  rw [x.ofList_spread_turnedParts] at scanned
  have distinct := (List.pairwise_append.mp (Token.pairwise_ne_of_scan h.scanned)).1
  exact ⟨n, body, scanned, by rw [contents, List.map_map],
    Excerpt.pairwise_turnedParts distinct below⟩

/-- What a text with its comparison turned around is read as: the same functions, one of them bound
to a frame with the same names. -/
theorem IsComparison.exists_program (h : IsComparison source p x s')
    (read : Program.ofSource source = .ok p) :
    ∃ fs f gs f' g, p = fs ++ f :: gs ∧
      Program.ofSource (x.turned s') = .ok ((fs ++ f' :: gs : Program).relocate g) ∧
      (f.rename id f'.frame).Alike f' ∧ f'.frame.names.Perm f.frame.names ∧
      ((∀ y ∈ x.mentioned, y ∈ x.known) → f'.frame = f.frame) := by
  obtain ⟨n, body, scanned, contents, distinct⟩ := h.exists_scan
  obtain ⟨fs, f, gs, rfl, earlier, compares, later⟩ := h.inProgram
  obtain ⟨f', definition, alike, perm, same⟩ :=
    compares.exists_definition (Excerpt.brackets s' n)
  have derivable : Grammar.Program ((x.turnedParts s' n).map Prod.fst) (fs ++ f' :: gs) := by
    rw [x.map_fst_turnedParts, x.map_fst_turnedComparison]
    exact earlier.append (.cons definition later)
  obtain ⟨-, -, exact_⟩ := Program.ofSource_exact h.scanned
  obtain ⟨-, params, nearest⟩ := (exact_ _).mp read
  simp only [List.forall_mem_append, List.forall_mem_cons] at params nearest
  have params' : f'.ParamsDistinct := by
    refine alike.paramsDistinct.mpr ?_
    rw [Function.ParamsDistinct, Function.rename, List.map_map]
    exact params.2.1
  have nearest' : f'.ElsesNearest :=
    alike.elsesNearest.mpr ((elsesNearestIn_renameBlock _ _ f.body).mpr nearest.2.1)
  obtain ⟨g, read'⟩ := Program.exists_ofSource_relocate scanned contents distinct derivable
    (List.forall_mem_append.mpr ⟨params.1, List.forall_mem_cons.mpr ⟨params', params.2.2⟩⟩)
    (List.forall_mem_append.mpr ⟨nearest.1, List.forall_mem_cons.mpr ⟨nearest', nearest.2.2⟩⟩)
  exact ⟨fs, f, gs, f', g, rfl, read', alike, perm, same⟩

end Compilation

/-- Every `>` and every `>=` in a source that is read is the sign of a comparison, and every
comparison may be turned around: in its place there may stand its right side in parentheses, `<` or
`<=`, and its left side in parentheses. The source is read then. Its functions have frames of the
same sizes, with their slots exchanged one for one. It is compiled to the same listing up to these
slots, or not at all if the original is not. If no variable comes up first in the comparison, then
it is compiled to the very same listing. -/
theorem compileWith_turned {source : String} {p : Program}
    (read : Program.ofSource source = .ok p) :
    (∀ tokens, Token.scan source = .ok tokens → ∀ t ∈ tokens, t.IsGreater →
      ∃ x s', IsComparison source p x s' ∧ x.sign = t) ∧
    ∀ x s', IsComparison source p x s' →
      source.toList = x.front ++ x.text ++ x.back ∧
      (∃ p' σ, Program.ofSource (x.turned s') = .ok p' ∧ p'.length = p.length ∧
        (∀ (k : Nat) (f f' : Function), p[k]? = some f → p'[k]? = some f' → f.Reslots (σ k) f') ∧
        ∀ (s r : Label.Supply) (lines : Listing), compileWith (x.turned s') s = (.ok lines, r) ↔
          ∃ old, compileWith source s = (.ok old, r) ∧ lines = old.reslot σ) ∧
      ((∀ y ∈ x.mentioned, y ∈ x.known) →
        ∀ (s r : Label.Supply) (lines : Listing), compileWith (x.turned s') s = (.ok lines, r) ↔
          compileWith source s = (.ok lines, r)) := by
  refine ⟨fun tokens scanned t mem greater => exists_isComparison read scanned mem greater, ?_⟩
  intro x s' comparison
  have bound := Program.bound_of_ofSource read
  obtain ⟨fs, f, gs, f', g, rfl, read', alike, perm, same⟩ := comparison.exists_program read
  have here : f.Bound := bound f (by simp)
  have reslots := alike.reslots here perm
  refine ⟨comparison.toList_eq, ?_, fun known s r lines => ?_⟩
  · refine ⟨_, onlyAt fs.length (f.frame.transfer f'.frame), read', ?_, ?_, fun s r lines => ?_⟩
    · simp [Program.relocate]
    · intro k h h' hk hk'
      unfold Program.relocate at hk'
      rw [List.getElem?_map, Option.map_eq_some_iff] at hk'
      obtain ⟨h', hk', rfl⟩ := hk'
      exact (Program.reslots_of_getElem? reslots hk hk').relocate g
    · rw [compileWith_eq_ok read', Program.generate_relocate_eq_ok, Program.generate_of_alike alike,
        Program.generate_rebound here (fun y hy => reslots.offset y hy)
          (Frame.size_of_perm perm)]
      simp only [compileWith_eq_ok read]
  · rw [same known] at alike
    rw [compileWith_eq_ok read', compileWith_eq_ok read, Program.generate_relocate_eq_ok,
      Program.generate_of_alike alike, Program.generate_rebound_self here]

/-! ## 4. Two comparisons -/

/-- The program `f(b){c>a;return c>=a;}`, with new variables in its first comparison and none in the
second one. -/
def Program.twice : Program :=
  [{ name := "f"
     loc := 0
     params := [⟨"b", 8⟩]
     body := [.expr (.binary .lt (.var "a" 24 7) (.var "c" 16 5)),
       .ret (.binary .le (.var "a" 24 19) (.var "c" 16 16))]
     frame := .ofNames ["b", "c", "a"]
     frameSize := 24 }]

namespace Excerpt

/-- The tokens of the function before its body. -/
def head : List (Token × List Char) :=
  [(⟨.ident, 0, some "f"⟩, []), (.signAt "(" 1, []), (⟨.ident, 2, some "b"⟩, []),
    (.signAt ")" 3, []), (.signAt "\x7b" 4, [])]

/-- The first comparison. -/
def fresh : Excerpt where
  lead := []
  earlier := []
  before := head
  left := ⟨[], ⟨.ident, 5, some "c"⟩, []⟩
  sign := .signAt ">" 6
  gap := []
  right := ⟨[], ⟨.ident, 7, some "a"⟩, []⟩
  after := [(.signAt ";" 8, []), (⟨.keyword, 9, some "return"⟩, [' ']),
    (⟨.ident, 16, some "c"⟩, []), (.signAt ">=" 17, []), (⟨.ident, 19, some "a"⟩, []),
    (.signAt ";" 20, []), (.signAt "\x7d" 21, [])]
  later := []

/-- The second comparison. -/
def settled : Excerpt where
  lead := []
  earlier := []
  before := head ++ [(⟨.ident, 5, some "c"⟩, []), (.signAt ">" 6, []), (⟨.ident, 7, some "a"⟩, []),
    (.signAt ";" 8, []), (⟨.keyword, 9, some "return"⟩, [' '])]
  left := ⟨[], ⟨.ident, 16, some "c"⟩, []⟩
  sign := .signAt ">=" 17
  gap := []
  right := ⟨[], ⟨.ident, 19, some "a"⟩, []⟩
  after := [(.signAt ";" 20, []), (.signAt "\x7d" 21, [])]
  later := []

end Excerpt

/-- A variable by itself. -/
theorem Grammar.Level.of_name {slot : String → Nat} {x : String} {offset : Nat}
    (h : slot x = offset) (loc : Nat) : Level slot 2 [⟨.ident, loc, some x⟩] (.var x offset loc) :=
  h ▸ .tighter (.tighter (.primary (.var rfl rfl)))

/-- A part of the body of this function. -/
theorem Excerpt.around_head {x : Grammar.Phrase} {us bs as : List Token} {body : List Stmt}
    (within : Grammar.Within (Frame.ofNames ["b", "c", "a"]).offset x (.statements body) bs as)
    (names : Grammar.variableNames (bs ++ (us ++ as)) = ["c", "a", "c", "a"]) :
    Grammar.Around us x ⟨"f", 0, [⟨"b", 8⟩], body, .ofNames ["b", "c", "a"], 24⟩
      (head.map Prod.fst ++ bs) (as ++ [.signAt "\x7d" 21]) := by
  have frame : Frame.ofNames ["b", "c", "a"] =
      .ofNames (["b"] ++ Grammar.variableNames (bs ++ (us ++ as))) := by
    rw [names]
    rfl
  exact .intro (t := ⟨.ident, 0, some "f"⟩) rfl rfl (Token.isPunctuator_signAt "(" 1)
    (.present (.last rfl rfl)) (Token.isPunctuator_signAt ")" 3)
    (Token.isPunctuator_signAt "\x7b" 4) within (Token.isPunctuator_signAt "\x7d" 21) frame

/-- The first comparison has new variables on both sides, and the second one has none. -/
theorem twice_isComparison :
    IsComparison "f(b){c>a;return c>=a;}" .twice .fresh "<" ∧
      IsComparison "f(b){c>a;return c>=a;}" .twice .settled "<=" := by
  have space : Token.isBlank ' ' := rfl
  have a : (Frame.ofNames ["b", "c", "a"]).offset "a" = 24 := by decide
  have c : (Frame.ofNames ["b", "c", "a"]).offset "c" = 16 := by decide
  have hfirst := Grammar.Level.of_name c 5
  have hsecond := Grammar.Level.of_name c 16
  have first : Grammar.Statement (Frame.ofNames ["b", "c", "a"]).offset
      [⟨.ident, 5, some "c"⟩, .signAt ">" 6, ⟨.ident, 7, some "a"⟩, .signAt ";" 8]
      (.expr (.binary .lt (.var "a" 24 7) (.var "c" 16 5))) :=
    .expr (.plain (.tighter (.operator (.tighter hfirst) (Token.isPunctuator_signAt ">" 6)
      (Grammar.Level.of_name a 7) (.gt _ _)))) (Token.isPunctuator_signAt ";" 8)
  have second : Grammar.Statement (Frame.ofNames ["b", "c", "a"]).offset
      [⟨.keyword, 9, some "return"⟩, ⟨.ident, 16, some "c"⟩, .signAt ">=" 17,
        ⟨.ident, 19, some "a"⟩, .signAt ";" 20]
      (.ret (.binary .le (.var "a" 24 19) (.var "c" 16 16))) :=
    .ret rfl (.plain (.tighter (.operator (.tighter hsecond) (Token.isPunctuator_signAt ">=" 17)
      (Grammar.Level.of_name a 19) (.ge _ _)))) (Token.isPunctuator_signAt ";" 20)
  constructor
  · refine ⟨by rfl, List.forall_mem_nil _, ?_, by cbv, [], _, [], rfl, .nil, .intro ?_
      (.tighter hfirst) (Token.isPunctuator_signAt ">" 6) .gt (Grammar.Level.of_name a 7), .nil⟩
    · simp [AllBlank, Excerpt.parts, Excerpt.fresh, Excerpt.head, Stretch.parts, space]
    · exact Excerpt.around_head (.inside (.inside (.inside (.inside .here .tighter) .plain)
        (.expr (Token.isPunctuator_signAt ";" 8))) (.first (.cons second .nil))) (by rfl)
  · refine ⟨by rfl, List.forall_mem_nil _, ?_, by cbv, [], _, [], rfl, .nil, .intro ?_
      (.tighter hsecond) (Token.isPunctuator_signAt ">=" 17) .ge (Grammar.Level.of_name a 19), .nil⟩
    · simp [AllBlank, Excerpt.parts, Excerpt.settled, Excerpt.head, Stretch.parts, space]
    · exact Excerpt.around_head (.inside (.inside (.inside (.inside (.inside .here .tighter)
        .plain) (.ret rfl (Token.isPunctuator_signAt ";" 20))) (.first .nil)) (.others first))
        (by rfl)

theorem compileWith_twice :
    Program.ofSource "f(b){c>a;return c>=a;}" = .ok .twice ∧
      Excerpt.fresh.turned "<" = "f(b){(a) < (c);return c>=a;}" ∧
      (∃ p' σ, Program.ofSource "f(b){(a) < (c);return c>=a;}" = .ok p' ∧
        (∀ (k : Nat) (f f' : Function), Program.twice[k]? = some f → p'[k]? = some f' →
          f.Reslots (σ k) f') ∧
        ∀ (s r : Label.Supply) (lines : Listing),
          compileWith "f(b){(a) < (c);return c>=a;}" s = (.ok lines, r) ↔
            ∃ old, compileWith "f(b){c>a;return c>=a;}" s = (.ok old, r) ∧
              lines = old.reslot σ) ∧
      Excerpt.settled.turned "<=" = "f(b){c>a;return (a) <= (c);}" ∧
      (∀ y ∈ Excerpt.settled.mentioned, y ∈ Excerpt.settled.known) ∧
      ∀ (s r : Label.Supply) (lines : Listing),
        compileWith "f(b){c>a;return (a) <= (c);}" s = (.ok lines, r) ↔
          compileWith "f(b){c>a;return c>=a;}" s = (.ok lines, r) := by
  have read : Program.ofSource "f(b){c>a;return c>=a;}" = .ok .twice := by cbv
  have first : Excerpt.fresh.turned "<" = "f(b){(a) < (c);return c>=a;}" := by rfl
  have second : Excerpt.settled.turned "<=" = "f(b){c>a;return (a) <= (c);}" := by rfl
  have known : ∀ y ∈ Excerpt.settled.mentioned, y ∈ Excerpt.settled.known := by
    have mentioned : Excerpt.settled.mentioned = ["c", "a"] := by rfl
    have known : Excerpt.settled.known = ["b", "c", "a"] := by rfl
    rw [mentioned, known]
    simp
  obtain ⟨fresh, settled⟩ := twice_isComparison
  obtain ⟨-, ⟨p', σ, read', -, reslots, lines⟩, -⟩ := (compileWith_turned read).2 _ _ fresh
  obtain ⟨-, -, same⟩ := (compileWith_turned read).2 _ _ settled
  rw [first] at read' lines
  rw [second] at same
  exact ⟨read, first, ⟨p', σ, read', reslots, lines⟩, second, known, same known⟩

end StackCompiler
