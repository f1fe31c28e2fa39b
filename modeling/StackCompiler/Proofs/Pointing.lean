import Mathlib
import StackCompiler.Proofs.Blame
import StackCompiler.Proofs.Grammar.Complaints
import StackCompiler.Proofs.Prefixes

/-!
# Where diagnostics point

A diagnostic that is located in the source, and not at its end, is located at the first byte of a
character that can be seen: that of a token, or one from which on nothing can be lexed. The caret
is drawn under this character.

The main statements are these.
* No message has more than one line (`Fault.Quotes.oneLine`, `Token.Refuses.oneLine`).
* An excerpt has two lines, and its caret stands below the character at the offset that it was made
  for, if that ends no line (`exists_caret`).
* Both together, for whatever a source is refused for (`compile_points`).
-/

namespace StackCompiler

/-! ## 1. Messages -/

/-- There is no line feed in the text. -/
def OneLine (s : String) : Prop :=
  '\n' ∉ s.toList

instance (s : String) : Decidable (OneLine s) :=
  inferInstanceAs (Decidable ('\n' ∉ s.toList))

theorem OneLine.append {s s' : String} (h : OneLine s) (h' : OneLine s') : OneLine (s ++ s') := by
  unfold OneLine
  rw [String.toList_append]
  exact List.not_mem_append h h'

theorem oneLine_toString (n : Nat) : OneLine (toString n) := by
  unfold OneLine
  rw [Nat.toString_eq_repr, Nat.toList_repr]
  intro mem
  exact absurd (Nat.isDigit_of_mem_toDigits (by decide) (by decide) mem) (by decide)

theorem Wanted.Usual.oneLine {wanted : Wanted} (h : wanted.Usual) : OneLine wanted.phrase := by
  cases h with
  | punctuator mem =>
    have brackets : ∀ s ∈ Token.brackets, OneLine (Wanted.punctuator s).phrase := by decide
    exact brackets _ mem
  | number => decide
  | identifier => decide

/-- What messages call a token has one line if the text of the token has. -/
theorem Token.oneLine_describe {t : Token} {found : String} (named : describe (some t) = some found)
    (text : ∀ s, t.text = some s → OneLine s) : OneLine found := by
  unfold describe at named
  dsimp only at named
  split at named
  · rw [← Option.some.inj named]
    decide
  · exact text found named

theorem OneLine.between {before s after : String} (first : OneLine before) (h : OneLine s)
    (last : OneLine after) : OneLine (before ++ s ++ after) :=
  (first.append h).append last

/-- The message of a fault that is about a token has one line if the text of the token has. -/
theorem Fault.Quotes.oneLine {fault : Fault} {t : Token} (quotes : fault.Quotes t)
    (text : ∀ s, t.text = some s → OneLine s) : OneLine fault.message := by
  cases fault with
  | numberTooLarge | strayCharacter => cases quotes
  | tornToken | numberWithoutValue | notAssignable | labelsExhausted =>
    unfold Fault.message
    decide
  | tooManyParameters limit | tooManyArguments limit =>
    exact .between (by decide) (oneLine_toString limit) (by decide)
  | reservedName name | redefinition name | duplicateParameter name =>
    exact .between (by decide) (text name quotes) (by decide)
  | unexpected wanted found =>
    obtain ⟨usual, named⟩ := quotes
    exact .between (.between (by decide) usual.oneLine (by decide))
      (Token.oneLine_describe named text) (by decide)

/-- A fault that is about a token is not a lexical one. -/
theorem Fault.Quotes.stage_ne {fault : Fault} {t : Token} (h : fault.Quotes t) :
    fault.stage ≠ .lexical := by
  cases fault with
  | numberTooLarge | strayCharacter => cases h
  | _ => exact fun lexical => by cases lexical

theorem Token.Refuses.stage_eq {fault : Fault} {cs : List Char} (h : Refuses fault cs) :
    fault.stage = .lexical := by
  cases h <;> rfl

theorem Token.Refuses.oneLine {fault : Fault} {cs : List Char} (h : Refuses fault cs) :
    OneLine fault.message := by
  cases h with
  | @stray c after blank _ _ _ _ =>
    have visible : '\n' ≠ c := by
      rintro rfl
      exact blank (by decide)
    have single : OneLine (String.singleton c) := by
      unfold OneLine
      rw [String.singleton_eq_ofList, String.toList_ofList, List.mem_singleton]
      exact visible
    exact .between (by decide) single (by decide)
  | large _ _ _ _ =>
    unfold Fault.message
    decide

/-! ## 2. Excerpts -/

/-- Carriage returns are taken away behind the last other character only. -/
theorem trimReturns_append_cons {c : Char} (h : c ≠ '\r') (left right : List Char) :
    trimReturns (left ++ c :: right) = left ++ c :: trimReturns right := by
  unfold trimReturns
  have kept : (c :: left.reverse).dropWhile (· == '\r') = c :: left.reverse :=
    List.dropWhile_cons_of_neg fun h' => h (beq_iff_eq.mp h')
  rw [List.reverse_append, List.reverse_cons, List.append_assoc, List.dropWhile_append]
  split
  · next nothing =>
    rw [List.isEmpty_iff.mp nothing, List.singleton_append, kept]
    simp
  · simp

theorem mem_trimReturns {c : Char} {line : List Char} (h : c ∈ trimReturns line) : c ∈ line := by
  unfold trimReturns at h
  have mem := (List.dropWhile_sublist _).subset (List.mem_reverse.mp h)
  exact List.mem_reverse.mp mem

/-- There is no line feed in the part of a text before the first line feed. -/
theorem not_mem_takeWhile (cs : List Char) : '\n' ∉ cs.takeWhile (· != '\n') := by
  intro mem
  exact absurd (List.mem_takeWhile_imp mem) (by decide)

/-- The caret of an excerpt stands below the character at the offset, if that ends no line. -/
theorem exists_caret {source : String} {before after : List Char} {c : Char}
    (split : source.toList = before ++ c :: after) (noFeed : c ≠ '\n') (noReturn : c ≠ '\r')
    (message : String) :
    ∃ (shown : List Char) (k : Nat), (excerpt source (Text.byteSize before) message).toList =
        shown ++ '\n' :: (List.replicate k ' ' ++ '^' :: ' ' :: message.toList) ∧
      '\n' ∉ shown ∧ shown[k]? = some c := by
  let left := (before.reverse.takeWhile (· != '\n')).reverse
  let right := after.takeWhile (· != '\n')
  have first : (c :: after).takeWhile (· != '\n') = c :: right :=
    List.takeWhile_cons_of_pos (by simp [noFeed])
  refine ⟨left ++ c :: trimReturns right, left.length, ?_, ?_, ?_⟩
  · unfold excerpt
    rw [split, Text.cut_exact]
    dsimp only
    rw [String.toList_ofList, first, trimReturns_append_cons noReturn]
  · refine List.not_mem_append ?_ (List.not_mem_cons_of_ne_of_not_mem noFeed.symm ?_)
    · exact fun mem => not_mem_takeWhile _ (List.mem_reverse.mp mem)
    · exact fun mem => not_mem_takeWhile _ (mem_trimReturns mem)
  · simp

/-! ## 3. Places -/

namespace Token

variable {source : String}

/-- The text of a token has one line. -/
theorem oneLine_of_scan {tokens : List Token} {t : Token} (scanned : scan source = .ok tokens)
    (ht : t ∈ tokens) : ∀ s, t.text = some s → OneLine s := by
  obtain ⟨body, rfl, lexes⟩ := scan_eq_ok.mp scanned
  intro s hs
  rcases List.mem_append.mp ht with mem | last
  · obtain ⟨before, text, after, -, -, same, lexeme⟩ := lexes.placed t mem
    obtain rfl := Option.some.inj (same.symm.trans hs)
    unfold OneLine
    rw [String.toList_ofList]
    exact fun feed => absurd (lexeme.not_isBlank '\n' feed) (by decide)
  · rw [List.mem_singleton.mp last] at hs
    obtain rfl := Option.some.inj hs
    decide

/-- A token that starts before the end starts at a character that is no blank, and its text has one
line. -/
theorem exists_character {tokens : List Token} {t : Token} (scanned : scan source = .ok tokens)
    (ht : t ∈ tokens) (inside : t.loc < source.utf8ByteSize) :
    t.kind ≠ .eof ∧ (∀ s, t.text = some s → OneLine s) ∧
      ∃ before c after, source.toList = before ++ c :: after ∧ Text.byteSize before = t.loc ∧
        isBlank c = false := by
  have oneLine := oneLine_of_scan scanned ht
  obtain ⟨body, rfl, lexes⟩ := scan_eq_ok.mp scanned
  have mem : t ∈ body := by
    refine (List.mem_append.mp ht).resolve_right fun last => ?_
    rw [List.mem_singleton.mp last] at inside
    exact Nat.lt_irrefl _ inside
  obtain ⟨before, text, after, split, loc, same, lexeme⟩ := lexes.placed t mem
  have visible := lexeme.not_isBlank
  refine ⟨lexes.noEnd t mem, oneLine, ?_⟩
  cases text with
  | nil => exact absurd rfl lexeme.ne_nil
  | cons c text => exact ⟨before, c, text ++ after, split, loc, visible c List.mem_cons_self⟩

/-- No digit of a lexeme stands before a digit that does not belong to it. -/
theorem IsLexeme.not_isDigit {kind : TokenKind} {text after : List Char} {c : Char}
    (h : IsLexeme kind text (c :: after)) (digit : c.isDigit) : ∀ d ∈ text, d.isDigit = false := by
  have noPart {d : Char} (hd : continuesWord d = false) : d.isDigit = false :=
    Bool.eq_false_iff.mpr fun h' => Bool.eq_false_iff.mp hd (continuesWord_of_isDigit h')
  cases h with
  | keyword _ _ last _ | word _ _ last _ =>
    rw [noPart (last c after rfl)] at digit
    cases digit
  | number _ _ last _ =>
    rw [last c after rfl] at digit
    cases digit
  | pair mem =>
    exact List.forall_mem_cons.mpr
      ⟨noPart (punctuator_classes (.inr mem)).2.2, List.forall_mem_singleton.mpr rfl⟩
  | single mem _ =>
    exact List.forall_mem_singleton.mpr (noPart (punctuator_classes (.inl mem)).2.2)

/-- Where a source is lexed up to a digit, no digit stands right before that. -/
theorem Lexes.not_isDigit {upto : Nat} {body : List Token} {before after : List Char} {c d : Char}
    (h : Lexes source upto body) (split : source.toList = before ++ d :: c :: after)
    (size : Text.byteSize (before ++ [d]) = upto) (digit : c.isDigit) : d.isDigit = false := by
  refine Bool.eq_false_iff.mpr fun hd => ?_
  have one : d.utf8Size = 1 := utf8Size_of_continuesWord (continuesWord_of_isDigit hd)
  rw [Text.byteSize_append, Text.byteSize_cons, one] at size
  have size : Text.byteSize before + 1 = upto := size
  by_cases covered : ∃ t ∈ body,
      t.loc ≤ Text.byteSize before ∧ Text.byteSize before < t.loc + t.size
  -- A token that covers the last byte ends with it.
  · obtain ⟨t, ht, -, ends⟩ := covered
    obtain ⟨before', text, after', split', loc, same, lexeme⟩ := h.placed t ht
    have whole : Text.byteSize (before' ++ text) = Text.byteSize (before ++ [d]) := by
      rw [Text.byteSize_append, loc, ← size_of_text same, Text.byteSize_append, Text.byteSize_cons,
        one]
      exact Nat.le_antisymm (size ▸ h.within t ht) ends
    rw [← List.append_assoc] at split'
    rw [← List.singleton_append, ← List.append_assoc] at split
    obtain ⟨parts, rfl⟩ := split_unique (split'.symm.trans split) whole
    obtain rfl | ⟨text, e, rfl⟩ := List.eq_nil_or_concat text
    · exact lexeme.ne_nil rfl
    · rw [List.concat_eq_append] at parts lexeme
      rw [← List.append_assoc] at parts
      obtain ⟨-, last⟩ := List.append_inj' parts rfl
      obtain rfl := (List.cons.inj last).1
      have := lexeme.not_isDigit digit e (List.mem_append_right _ List.mem_cons_self)
      rw [hd] at this
      cases this
  -- Otherwise it is a blank.
  · have out : ∀ t ∈ body,
        ¬ (t.loc ≤ Text.byteSize before ∧ Text.byteSize before < t.loc + t.size) :=
      fun t ht covers => covered ⟨t, ht, covers⟩
    have lt : Text.byteSize before < upto := Nat.lt_of_succ_le (Nat.le_of_eq size)
    obtain ⟨before', e, after', split', loc, blank⟩ := h.blank _ lt out
    obtain ⟨-, parts⟩ := split_unique (split'.symm.trans split) loc
    obtain rfl := (List.cons.inj parts).1
    rw [← isBlank_iff, not_isBlank_of_continuesWord (continuesWord_of_isDigit hd)] at blank
    cases blank

end Token

/-! ## 4. Diagnostics -/

/-- A source is refused where it cannot be lexed, or at one of its tokens. -/
theorem refusal_cases {source : String} {d : Diagnostic} (refused : compile source = .error d) :
    (∃ l, Token.scan source = .error l ∧ d = l.report) ∨
      ∃ tokens fault, ∃ t ∈ tokens, Token.scan source = .ok tokens ∧
        d = Fault.report fault t.loc ∧ fault.Quotes t := by
  unfold compile at refused
  cases scanned : Token.scan source with
  | error l =>
    have read : Program.ofSource source = .error l := by
      unfold Program.ofSource
      rw [scanned]
      rfl
    rw [compileWith_of_not_read read] at refused
    cases refused
    exact .inl ⟨l, rfl, rfl⟩
  | ok tokens =>
    right
    cases read : Program.ofSource source with
    | error l =>
      rw [compileWith_of_not_read read] at refused
      cases refused
      obtain ⟨before, t, after, start, more, rfl, here, halt, -⟩ :=
        Program.exists_refused_token scanned read
      have complaint := Surface.readFunctions_complaint halt
      refine ⟨_, l.fault, t, List.mem_append_right _ List.mem_cons_self, rfl, ?_,
        complaint.quotes rfl⟩
      rw [← here]
      rfl
    | ok p =>
      rw [compileWith_of_read read] at refused
      rcases generated : p.generate .full with ⟨l | lines, rest⟩
      · rw [generated] at refused
        cases refused
        obtain ⟨t, ht, here, quotes⟩ := Program.exists_token_of_ofSource scanned read generated
        refine ⟨_, l.fault, t, ht, rfl, ?_, quotes⟩
        rw [here]
        rfl
      · rw [generated] at refused
        cases refused

theorem not_return_of_visible {c : Char} (h : Token.isBlank c = false) : c ≠ '\n' ∧ c ≠ '\r' := by
  constructor <;>
  · rintro rfl
    cases h

/-- Diagnostics point at the character that is to blame. If a source is refused at a byte before its
end then a character `c` starts at this byte.

* Unless the fault is lexical, it is the first character of a token of the source.
* If the fault is lexical, the source can be lexed up to this character, and from it on not: it
  belongs to no lexeme, or a number starts there, and not before, that is too large.
* The diagnostic is shown in two lines. The first one has `c` in some column, and the second one has
  a caret in that column, and behind it the message. -/
theorem compile_points {source : String} {d : Diagnostic} (refused : compile source = .error d)
    (inside : d.loc < source.utf8ByteSize) :
    ∃ before c after, source.toList = before ++ c :: after ∧ Text.byteSize before = d.loc ∧
      (d.stage ≠ .lexical → ∃ tokens, Token.scan source = .ok tokens ∧
        ∃ t ∈ tokens, t.kind ≠ .eof ∧ t.loc = d.loc) ∧
      (d.stage = .lexical → ∃ fault, d = Fault.report fault d.loc ∧
        (∃ body, Token.Lexes source d.loc body) ∧ Token.Refuses fault (c :: after) ∧
        (c.isDigit → ∀ before' e, before = before' ++ [e] → e.isDigit = false)) ∧
      ∃ (shown : List Char) (k : Nat), (d.render source).toList =
          shown ++ '\n' :: (List.replicate k ' ' ++ '^' :: ' ' :: d.message.toList) ∧
        '\n' ∉ shown ∧ '\n' ∉ d.message.toList ∧ shown[k]? = some c := by
  rcases refusal_cases refused with ⟨l, failed, rfl⟩ | ⟨tokens, fault, t, ht, scanned, rfl, quotes⟩
  · obtain ⟨⟨body, lexes⟩, before, rest, split, size, refuses⟩ := Token.scan_eq_error.mp failed
    obtain ⟨c, after, rfl⟩ := List.exists_cons_of_ne_nil refuses.ne_nil
    obtain ⟨noFeed, noReturn⟩ := not_return_of_visible (refuses.lexeme_eq rfl).1
    obtain ⟨shown, k, lines, feed, caret⟩ := exists_caret split noFeed noReturn l.fault.message
    refine ⟨before, c, after, split, size, fun other => absurd refuses.stage_eq other, fun _ => ?_,
      shown, k, ?_, feed, refuses.oneLine, caret⟩
    · refine ⟨l.fault, rfl, ⟨body, lexes⟩, refuses, ?_⟩
      rintro digit before' e rfl
      rw [List.append_assoc] at split
      exact lexes.not_isDigit split size digit
    · rw [size] at lines
      exact lines
  · obtain ⟨kind, text, before, c, after, split, size, visible⟩ :=
      Token.exists_character scanned ht inside
    obtain ⟨noFeed, noReturn⟩ := not_return_of_visible visible
    obtain ⟨shown, k, lines, feed, caret⟩ := exists_caret split noFeed noReturn fault.message
    refine ⟨before, c, after, split, size, fun _ => ⟨tokens, scanned, t, ht, kind, rfl⟩,
      fun lexical => absurd lexical quotes.stage_ne, shown, k, ?_, feed, quotes.oneLine text, caret⟩
    rw [size] at lines
    exact lines

/-- The caret stands under the left side of the assignment, on the second line of the source. -/
theorem compile_points_at_target :
    compile "f()\x7b\r\n1=2;\x7d" = .error ⟨.semantic, 6, "not an lvalue"⟩ ∧
      (∃ tokens, Token.scan "f()\x7b\r\n1=2;\x7d" = .ok tokens ∧
        ∃ t ∈ tokens, t.kind ≠ .eof ∧ t.loc = 6) ∧
      ∃ (c : Char) (shown : List Char) (k : Nat),
        (Diagnostic.render ⟨.semantic, 6, "not an lvalue"⟩ "f()\x7b\r\n1=2;\x7d").toList =
            shown ++ '\n' :: (List.replicate k ' ' ++ '^' :: ' ' :: "not an lvalue".toList) ∧
          '\n' ∉ shown ∧ shown[k]? = some c := by
  have read : Program.ofSource "f()\x7b\r\n1=2;\x7d" =
      .ok [⟨"f", 0, [], [.expr (.assign (.num 1) (.num 2) 6)], .empty, 0⟩] := by cbv
  have refused : compile "f()\x7b\r\n1=2;\x7d" = .error ⟨.semantic, 6, "not an lvalue"⟩ := by
    unfold compile
    rw [compileWith_of_read read]
    rfl
  obtain ⟨_, c, _, -, -, token, -, shown, k, lines, feed, -, caret⟩ :=
    compile_points refused (by decide)
  exact ⟨refused, token (by decide), c, shown, k, lines, feed, caret⟩

example : Diagnostic.render ⟨.semantic, 6, "not an lvalue"⟩ "f()\x7b\r\n1=2;\x7d" =
    "1=2;\x7d\n^ not an lvalue" := by
  cbv

end StackCompiler
