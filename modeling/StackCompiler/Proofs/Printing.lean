import Mathlib
import StackCompiler.Proofs.Lexing

/-!
# Printing tokens

Any list of lexemes is the lexing of some source: of their texts with a blank behind each
(`Token.scan_print`). The tokens found there have the same kinds and texts, at places of their own.
-/

namespace StackCompiler

namespace Token

/-! ## 1. Lexemes by themselves -/

/-- What a token is, apart from its place. -/
def content (t : Token) : TokenKind × Option String :=
  (t.kind, t.text)

/-- The token is a lexeme where nothing follows it. -/
def Spelled (t : Token) : Prop :=
  ∃ text, t.text = some (String.ofList text) ∧ IsLexeme t.kind text []

theorem IsPlaced.spelled {source : String} {t : Token} (h : t.IsPlaced source) : t.Spelled := by
  obtain ⟨before, text, after, -, -, same, lexeme⟩ := h
  exact ⟨text, same, lexeme.anew fun p _ _ => notFirst_nil p⟩

/-! ## 2. Printing -/

/-- The texts of the tokens with a blank behind each. -/
def print (ts : List Token) : List Char :=
  ts.flatMap fun t => (t.text.elim [] String.toList) ++ [' ']

/-- Behind what is lexed already, the printed tokens are lexed. -/
theorem Lexes.print {source : String} {before : List Char} {done ts : List Token}
    (h : Lexes source (Text.byteSize before) done) (spelled : ∀ t ∈ ts, t.Spelled)
    (split : source.toList = before ++ Token.print ts) :
    ∃ us, Lexes source source.utf8ByteSize (done ++ us) ∧ us.map content = ts.map content := by
  induction ts generalizing before done with
  | nil =>
    have whole : Text.byteSize before = source.utf8ByteSize := by
      rw [← Text.byteSize_toList, split, Token.print, List.flatMap_nil, List.append_nil]
    exact ⟨[], by rwa [List.append_nil, ← whole], rfl⟩
  | cons t ts ih =>
    obtain ⟨⟨text, same, lexeme⟩, spelled⟩ := List.forall_mem_cons.mp spelled
    have here : source.toList = before ++ (text ++ ' ' :: Token.print ts) := by
      rw [split, Token.print, List.flatMap_cons, same]
      simp [Token.print]
    have lexeme : IsLexeme t.kind text (' ' :: Token.print ts) :=
      lexeme.before_blank rfl (Token.print ts)
    obtain ⟨split, loc⟩ := split_past here rfl lexeme.byteSize_eq
    have taken := (h.take here rfl lexeme).skip split loc rfl
    have blank : ' ' :: Token.print ts = [' '] ++ Token.print ts := rfl
    rw [blank] at split
    obtain ⟨split, loc'⟩ := split_past split loc rfl
    rw [List.length_singleton] at loc'
    rw [← loc'] at taken
    obtain ⟨us, lexes, contents⟩ := ih taken spelled split
    refine ⟨⟨t.kind, Text.byteSize before, some (String.ofList text)⟩ :: us, ?_, ?_⟩
    · rwa [List.append_assoc] at lexes
    · rw [List.map_cons, List.map_cons, contents, content, content, same]

/-- Printed tokens are scanned as tokens of the same kinds and texts. -/
theorem scan_print {ts : List Token} (spelled : ∀ t ∈ ts, t.Spelled) :
    ∃ body, scan (String.ofList (print ts)) =
        .ok (body ++ [endOf (String.ofList (print ts))]) ∧
      body.map content = ts.map content := by
  have start := Lexes.nil (String.ofList (Token.print ts))
  have whole : (String.ofList (Token.print ts)).toList = [] ++ Token.print ts :=
    String.toList_ofList
  obtain ⟨body, lexes, contents⟩ := start.print spelled whole
  exact ⟨body, scan_eq_ok.mpr ⟨body, rfl, lexes⟩, contents⟩

/-! ## 3. Tokens of one's own -/

/-- The punctuator that is written `s`. -/
def sign (s : String) : Token :=
  ⟨.punctuator, 0, some s⟩

/-- An identifier. -/
def word (name : String) : Token :=
  ⟨.ident, 0, some name⟩

/-- The punctuators around the parts of a program. -/
def brackets : List String :=
  ["(", ")", "\x7b", "\x7d", ";"]

theorem spelled_sign {s : String} (h : s ∈ brackets) : (sign s).Spelled := by
  have single {c : Char} (mem : c ∈ ['(', ')', '\x7b', '\x7d', ';']) :
      IsLexeme .punctuator [c] [] := by
    have sub : ['(', ')', '\x7b', '\x7d', ';'] ⊆ singles := by decide
    exact .single (sub mem) fun _ => notFirst_nil _
  simp only [brackets, List.mem_cons, List.not_mem_nil, or_false] at h
  rcases h with rfl | rfl | rfl | rfl | rfl
  · exact ⟨['('], rfl, single (by decide)⟩
  · exact ⟨[')'], rfl, single (by decide)⟩
  · exact ⟨['\x7b'], rfl, single (by decide)⟩
  · exact ⟨['\x7d'], rfl, single (by decide)⟩
  · exact ⟨[';'], rfl, single (by decide)⟩

/-- The name of `n + 1` letters `x`. -/
def longName (n : Nat) : String :=
  String.ofList ('x' :: List.replicate n 'x')

theorem longName_injective : Function.Injective longName := by
  intro m n h
  have lengths := congrArg List.length (String.ofList_inj.mp h)
  simpa using lengths

theorem spelled_longName (n : Nat) : (word (longName n)).Spelled := by
  refine ⟨_, rfl, .word (by decide) (fun d hd => ?_) (notFirst_nil _) fun mem => ?_⟩
  · rw [List.eq_of_mem_replicate hd]
    decide
  · have others : ∀ s ∈ ["return", "if", "else", "for"], s.toList.head? ≠ some 'x' := by decide
    exact others _ mem (by rw [String.toList_ofList]; rfl)

/-- There is always one more name. -/
theorem exists_fresh (names : List String) : ∃ name, name ∉ names ∧ (word name).Spelled := by
  have infinite := Set.infinite_range_of_injective longName_injective
  obtain ⟨_, ⟨n, rfl⟩, fresh⟩ := infinite.exists_notMem_finset names.toFinset
  exact ⟨longName n, fun mem => fresh (List.mem_toFinset.mpr mem), spelled_longName n⟩

end Token

end StackCompiler
