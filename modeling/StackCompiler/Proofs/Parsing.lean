import Mathlib
import StackCompiler.Compilation
import StackCompiler.Proofs.Grammar.Completeness
import StackCompiler.Proofs.Lexing

/-!
# Reading is parsing

The reader accepts the programs of the grammar in which no parameter list repeats a name, and
nothing else. Of the trees that the grammar gives to a program, it builds the one in which every
`else` belongs to the nearest open `if`.

The main statements are these.
* What a list of tokens is read as depends on the tokens before its first end marker only
  (`Program.ofTokens_eq_ok`).
* A source that can be scanned is read as a program exactly if its tokens are derivable from
  `program` and no parameter list repeats a name (`Program.ofSource_exact`).
-/

namespace StackCompiler

open Grammar (NoEnd)

/-! ## 1. The tokens before the end -/

/-- The tokens before the first end marker. -/
def Token.beforeEnd : List Token → List Token
  | [] => []
  | t :: ts => if t.kind = .eof then [] else t :: beforeEnd ts

/-- Behind the first end marker, or at the end, nothing is added to the tokens before it. -/
theorem Token.beforeEnd_append_end (ts : List Token) {rest : List Token}
    (ends : Surface.atEnd rest) : Token.beforeEnd (ts ++ rest) = Token.beforeEnd ts := by
  induction ts with
  | nil =>
    cases rest with
    | nil => rfl
    | cons t rest => exact if_pos (beq_iff_eq.mp ends)
  | cons t ts ih => rw [List.cons_append, beforeEnd, beforeEnd, ih]

theorem Token.beforeEnd_append {used rest : List Token} (hused : NoEnd used)
    (hrest : Surface.atEnd rest) : Token.beforeEnd (used ++ rest) = used := by
  rw [beforeEnd_append_end used hrest]
  induction used with
  | nil => rfl
  | cons t used ih =>
    obtain ⟨ht, hused⟩ := List.forall_mem_cons.mp hused
    rw [beforeEnd, if_neg ht, ih hused]

theorem Token.exists_beforeEnd (tokens : List Token) :
    ∃ rest, tokens = Token.beforeEnd tokens ++ rest ∧ Surface.atEnd rest := by
  induction tokens with
  | nil => exact ⟨[], rfl, rfl⟩
  | cons t tokens ih =>
    rw [beforeEnd]
    split
    · next hk => exact ⟨t :: tokens, rfl, beq_iff_eq.mpr hk⟩
    · obtain ⟨rest, htokens, hrest⟩ := ih
      exact ⟨rest, congrArg (t :: ·) htokens, hrest⟩

/-- No lexeme is an end marker. -/
theorem Token.Lexes.noEnd {source : String} {upto : Nat} {body : List Token}
    (h : Token.Lexes source upto body) : NoEnd body := by
  intro t ht hk
  obtain ⟨_, _, _, _, _, _, hlex⟩ := h.placed t ht
  rw [hk] at hlex
  cases hlex

/-- A source that can be scanned has one end marker, behind all other tokens. -/
theorem Token.beforeEnd_of_scan {source : String} {tokens : List Token}
    (h : Token.scan source = .ok tokens) :
    tokens = Token.beforeEnd tokens ++ [Token.endOf source] := by
  obtain ⟨body, rfl, hbody⟩ := Token.scan_eq_ok.mp h
  rw [Token.beforeEnd_append hbody.noEnd rfl]

/-! ## 2. Programs -/

namespace Program

/-- Tokens are read as a program if the reader is not stuck before the end. -/
theorem ofTokens_eq_ok_iff {tokens : List Token} {size : Nat} {p : Program} :
    Program.ofTokens tokens size = .ok p ↔ (Surface.readProgram tokens).halt = none ∧
      (Surface.readProgram tokens).functions.map Surface.Function.resolve = p := by
  unfold Program.ofTokens
  dsimp only
  rw [Surface.map_bind]
  cases (Surface.readProgram tokens).halt with
  | none => exact ⟨fun h => ⟨rfl, Except.ok.inj h⟩, fun h => congrArg Except.ok h.2⟩
  | some stuck => exact ⟨fun h => (by cases h), fun h => (by cases h.1)⟩

/-- Tokens are refused at the token at which the reader is stuck. -/
theorem ofTokens_eq_error {tokens : List Token} {size : Nat} {l : Located} :
    Program.ofTokens tokens size = .error l ↔
      ∃ start stuck, (Surface.readFunctions [] tokens).halt = some (start, stuck) ∧
        stuck.located size = l := by
  rw [Program.ofTokens, Surface.readProgram]
  cases halt : (Surface.readFunctions [] tokens).halt with
  | none =>
    refine iff_of_false (fun h => by cases h) ?_
    rintro ⟨_, _, h, -⟩
    cases h
  | some stop =>
    obtain ⟨start, stuck⟩ := stop
    constructor
    · intro h
      exact ⟨start, stuck, rfl, Except.error.inj h⟩
    · rintro ⟨_, _, h, rfl⟩
      cases h
      rfl

/-- What a list of tokens is read as, whatever comes behind the first end marker. -/
theorem ofTokens_eq_ok {tokens : List Token} {size : Nat} {p : Program} :
    Program.ofTokens tokens size = .ok p ↔
      Grammar.Program (Token.beforeEnd tokens) p ∧ (∀ f ∈ p, f.ParamsDistinct) ∧
        ∀ f ∈ p, f.ElsesNearest := by
  rw [ofTokens_eq_ok_iff]
  constructor
  · rintro ⟨hhalt, rfl⟩
    obtain ⟨fs, used, rest, hfs, rfl, hrest, hprogram, hnearest, hdistinct⟩ :=
      Surface.readFunctions_sound hhalt
    rw [Token.beforeEnd_append hprogram.noEnd hrest, Surface.readProgram, hfs]
    exact ⟨hprogram, hdistinct, hnearest⟩
  · rintro ⟨hprogram, hdistinct, hnearest⟩
    obtain ⟨rest, htokens, hrest⟩ := Token.exists_beforeEnd tokens
    obtain ⟨fs, rfl, hread⟩ := hprogram.read hnearest hdistinct
    have hfunctions := hread rest hrest []
    rw [← htokens] at hfunctions
    rw [Surface.readProgram, hfunctions]
    exact ⟨rfl, rfl⟩

/-- What is read from a source is derivable from the lexemes of that source. -/
theorem exists_derivation {source : String} {p : Program} (h : Program.ofSource source = .ok p) :
    ∃ body, Token.Lexes source source.utf8ByteSize body ∧ Grammar.Program body p ∧
      (∀ f ∈ p, f.ParamsDistinct) ∧ ∀ f ∈ p, f.ElsesNearest := by
  unfold Program.ofSource at h
  cases hscan : Token.scan source with
  | error l =>
    rw [hscan] at h
    cases h
  | ok tokens =>
    rw [hscan] at h
    obtain ⟨hprogram, hdistinct, hnearest⟩ := ofTokens_eq_ok.mp h
    obtain ⟨body, rfl, hbody⟩ := Token.scan_eq_ok.mp hscan
    rw [Token.beforeEnd_append hbody.noEnd rfl] at hprogram
    exact ⟨body, hbody, hprogram, hdistinct, hnearest⟩

/-- The reader is exact. The tokens of a source are those of a program, with one end marker behind
them, exactly if they are derivable and no parameter list repeats a name; no derivation is too
ambiguous for that. The program is the one that the derivation denotes in which every `else`
belongs to the nearest open `if`, and there is only one. -/
theorem ofSource_exact {source : String} {tokens : List Token}
    (h : Token.scan source = .ok tokens) :
    tokens = Token.beforeEnd tokens ++ [Token.endOf source] ∧
      ((∃ p, Program.ofSource source = .ok p) ↔
        ∃ p, Grammar.Program (Token.beforeEnd tokens) p ∧ ∀ f ∈ p, f.ParamsDistinct) ∧
      ∀ p, Program.ofSource source = .ok p ↔
        Grammar.Program (Token.beforeEnd tokens) p ∧ (∀ f ∈ p, f.ParamsDistinct) ∧
          ∀ f ∈ p, f.ElsesNearest := by
  have hsource (p : Program) : Program.ofSource source = .ok p ↔
      Grammar.Program (Token.beforeEnd tokens) p ∧ (∀ f ∈ p, f.ParamsDistinct) ∧
        ∀ f ∈ p, f.ElsesNearest := by
    unfold Program.ofSource
    rw [h]
    exact ofTokens_eq_ok
  refine ⟨Token.beforeEnd_of_scan h, ⟨?_, ?_⟩, hsource⟩
  · rintro ⟨p, hp⟩
    obtain ⟨hprogram, hdistinct, -⟩ := (hsource p).mp hp
    exact ⟨p, hprogram, hdistinct⟩
  · rintro ⟨p, hprogram, hdistinct⟩
    -- the derivation at hand may put an `else` elsewhere, but there is one that does not
    obtain ⟨p', hprogram', hdistinct', hnearest'⟩ := hprogram.exists_elsesNearest hdistinct
    exact ⟨p', (hsource p').mpr ⟨hprogram', hdistinct', hnearest'⟩⟩

/-- The program `pick(a,b){if(a)if(a>b)return-a;else b=1-2-b;}`. The `else` belongs to the second
`if`, and the sides of its condition are exchanged. -/
def pick : Program :=
  [{ name := "pick"
     loc := 0
     params := [⟨"a", 8⟩, ⟨"b", 16⟩]
     body :=
      [.cond (.var "a" 8 13)
        (.cond (.binary .lt (.var "b" 16 20) (.var "a" 8 18))
          (.ret (.binary .sub (.num 0) (.var "a" 8 29)))
          (some (.expr (.assign (.var "b" 16 36)
            (.binary .sub (.binary .sub (.num 1) (.num 2)) (.var "b" 16 42)) 36))))
        none]
     frame := .ofNames ["a", "b"]
     frameSize := 16 }]

theorem pick_derivable :
    ∃ tokens, Token.scan "pick(a,b){if(a)if(a>b)return-a;else b=1-2-b;}" = .ok tokens ∧
      Grammar.Program (Token.beforeEnd tokens) pick ∧ ∀ f ∈ pick, f.ElsesNearest := by
  have hread :
      Program.ofSource "pick(a,b){if(a)if(a>b)return-a;else b=1-2-b;}" = .ok pick := by
    cbv
  cases hscan : Token.scan "pick(a,b){if(a)if(a>b)return-a;else b=1-2-b;}" with
  | error l =>
    unfold Program.ofSource at hread
    rw [hscan] at hread
    cases hread
  | ok tokens =>
    obtain ⟨-, -, hexact⟩ := ofSource_exact hscan
    obtain ⟨hderivable, -, hnearest⟩ := (hexact pick).mp hread
    exact ⟨tokens, rfl, hderivable, hnearest⟩

end Program

/-! ## 3. Compilation -/

/-- A source that is read as a program is compiled as this program is. -/
theorem compileWith_of_read {source : String} {p : Program} (h : Program.ofSource source = .ok p)
    (s : Label.Supply) :
    compileWith source s = ((p.generate s).1.mapError Located.report, (p.generate s).2) := by
  unfold compileWith
  rw [h]

/-- A source that is not read as a program is refused for that. -/
theorem compileWith_of_not_read {source : String} {l : Located}
    (h : Program.ofSource source = .error l) (s : Label.Supply) :
    compileWith source s = (.error l.report, s) := by
  unfold compileWith
  rw [h]

end StackCompiler
