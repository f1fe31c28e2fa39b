import StackCompiler.Proofs.Grammar.Reading

/-!
# Where the readers stop

One lemma for each reader says when it stops and at which place, as far as its own tests are
concerned: either a reader that it calls stops, or that reader yields something and the token
behind it is none that the grammar accepts. Together with the lemmas about what is yielded, this
says all that a reader can do.
-/

namespace StackCompiler

namespace Surface

open Grammar (Leads leads_cons not_leads_nil)

/-! ## 1. Outcomes -/

/-- The outcome is that reading stops at `stuck`. -/
def Outcome.Fails {α : Type} {bound : Nat} (o : Outcome α bound) (stuck : Stuck) : Prop :=
  o = .error stuck

section Fails

variable {α β : Type} {bound bound' : Nat} {stuck : Stuck}

theorem not_fails_ok {r : Reading α bound} : ¬ Outcome.Fails (.ok r) stuck := by
  intro h
  cases h

theorem fails_error {stuck' : Stuck} :
    Outcome.Fails (.error stuck' : Outcome α bound) stuck ↔ stuck' = stuck := by
  unfold Outcome.Fails
  rw [Except.error.injEq]

/-- Reading on behind a tree stops where reading the tree stops, or further on. -/
theorem fails_bind {o : Outcome α bound} {f : Reading α bound → Outcome β bound'} :
    Outcome.Fails (o >>= f) stuck ↔
      o.Fails stuck ∨ ∃ a mid, o.Yields a mid ∧ ∃ h, Outcome.Fails (f ⟨a, mid, h⟩) stuck := by
  constructor
  · intro h
    cases o with
    | error stuck' => exact .inl (fails_error.mpr (fails_error.mp h))
    | ok r =>
      obtain ⟨a, mid, hlt⟩ := r
      exact .inr ⟨a, mid, ⟨hlt, rfl⟩, hlt, h⟩
  · rintro (h | ⟨a, mid, ⟨_, rfl⟩, _, h⟩)
    · cases h
      rfl
    · exact h

theorem fails_bind_congr {o : Outcome α bound} {f : Reading α bound → Outcome β bound'}
    {P : α → List Token → Prop}
    (h : ∀ a mid (hlt : mid.length < bound), Outcome.Fails (f ⟨a, mid, hlt⟩) stuck ↔ P a mid) :
    Outcome.Fails (o >>= f) stuck ↔ o.Fails stuck ∨ ∃ a mid, o.Yields a mid ∧ P a mid := by
  rw [fails_bind]
  refine or_congr_right (exists_congr fun a => exists_congr fun mid => and_congr_right fun ha => ?_)
  rw [exists_prop_of_true ha.shorter, h]

/-- Wrapping up the last tree that is read does not stop. -/
theorem fails_bind_last {o : Outcome α bound} {f : Reading α bound → Outcome β bound'}
    (h : ∀ a mid (hlt : mid.length < bound), ¬ Outcome.Fails (f ⟨a, mid, hlt⟩) stuck) :
    Outcome.Fails (o >>= f) stuck ↔ o.Fails stuck := by
  rw [fails_bind]
  refine or_iff_left ?_
  rintro ⟨a, mid, -, hlt, hf⟩
  exact h a mid hlt hf

end Fails

theorem wanting_rest (wanted : Wanted) (ts : List Token) : (Stuck.wanting wanted ts).rest = ts := by
  unfold Stuck.wanting
  split <;> rfl

/-- The punctuator `s` was wanted where the tokens `ts` stand, and something else stands there. -/
def Misses (s : String) (ts : List Token) (stuck : Stuck) : Prop :=
  ¬ Leads s ts ∧ Stuck.wanting (.punctuator s) ts = stuck

theorem Misses.rest {s : String} {ts : List Token} {stuck : Stuck} (h : Misses s ts stuck) :
    stuck.rest = ts := by
  rw [← h.2, wanting_rest]

theorem readPunctuator_fails {s : String} {ts : List Token} {stuck : Stuck} :
    (readPunctuator s ts).Fails stuck ↔ Misses s ts stuck := by
  unfold Misses
  rw [readPunctuator, ← punctuator?_eq_none]
  split
  · next heq =>
    rw [heq]
    exact iff_of_false not_fails_ok (by rintro ⟨h, -⟩; cases h)
  · next heq =>
    rw [heq, fails_error]
    exact ⟨fun h => ⟨rfl, h⟩, fun h => h.2⟩

/-- Reading on behind a punctuator that has to come. -/
theorem fails_bind_punctuator {β : Type} {bound : Nat} {s : String} {ts : List Token}
    {f : Reading Unit ts.length → Outcome β bound} {stuck : Stuck} {P : List Token → Prop}
    (h : ∀ mid (hlt : mid.length < ts.length), Outcome.Fails (f ⟨(), mid, hlt⟩) stuck ↔ P mid) :
    Outcome.Fails (readPunctuator s ts >>= f) stuck ↔
      Misses s ts stuck ∨ ∃ t mid, ts = t :: mid ∧ t.isPunctuator s ∧ P mid := by
  rw [fails_bind_congr (P := fun _ mid => P mid) fun _ mid hlt => h mid hlt, readPunctuator_fails]
  refine or_congr_right ⟨?_, ?_⟩
  · rintro ⟨_, mid, hp, hP⟩
    obtain ⟨t, hts, hs⟩ := readPunctuator_yields.mp hp
    exact ⟨t, mid, hts, hs, hP⟩
  · rintro ⟨t, mid, hts, hs, hP⟩
    exact ⟨(), mid, readPunctuator_yields.mpr ⟨t, hts, hs⟩, hP⟩

/-- Wrapping up behind a punctuator that has to come. -/
theorem fails_bind_closing {β : Type} {bound : Nat} {s : String} {ts : List Token}
    {f : Reading Unit ts.length → Outcome β bound} {stuck : Stuck}
    (h : ∀ mid (hlt : mid.length < ts.length), ¬ Outcome.Fails (f ⟨(), mid, hlt⟩) stuck) :
    Outcome.Fails (readPunctuator s ts >>= f) stuck ↔ Misses s ts stuck := by
  rw [fails_bind_last fun _ mid hlt => h mid hlt, readPunctuator_fails]

theorem readIdentifier_fails {ts : List Token} {stuck : Stuck} :
    (readIdentifier ts).Fails stuck ↔
      (¬ ∃ t us name, ts = t :: us ∧ t.kind = .ident ∧ t.text = some name) ∧
        Stuck.wanting .identifier ts = stuck := by
  have yields : (∃ t us name, ts = t :: us ∧ t.kind = .ident ∧ t.text = some name) ↔
      ∃ name us, (readIdentifier ts).Yields name us := by
    simp only [readIdentifier_yields]
    constructor
    · rintro ⟨t, us, name, h⟩
      exact ⟨name, us, t, h⟩
    · rintro ⟨name, us, t, h⟩
      exact ⟨t, us, name, h⟩
  rw [yields, readIdentifier]
  split
  · refine iff_of_false not_fails_ok fun h => h.1 ⟨_, _, yields_ok.mpr ⟨rfl, rfl⟩⟩
  · rw [fails_error]
    refine ⟨fun h => ⟨?_, h⟩, fun h => h.2⟩
    rintro ⟨_, _, h⟩
    exact not_yields_error h

theorem readIdentifier_rest {ts : List Token} {stuck : Stuck}
    (h : (readIdentifier ts).Fails stuck) : stuck.rest = ts := by
  rw [← (readIdentifier_fails.mp h).2, wanting_rest]

/-- A fact that holds only where a token with the property `p` comes first. -/
theorem iff_front_only {p : Token → Bool} {ts : List Token} {R : Prop}
    {Q : Token → List Token → Prop} (front : ∀ t us, ts = t :: us → p t → (R ↔ Q t us))
    (other : (¬ ∃ t us, ts = t :: us ∧ p t) → ¬ R) : R ↔ ∃ t us, ts = t :: us ∧ p t ∧ Q t us := by
  have both := iff_front front fun hnot => iff_of_false (other hnot) not_false
  rw [and_false, false_or] at both
  exact both

/-- A fact that holds only where no token with the property `p` comes first. -/
theorem iff_not_front {p : Token → Bool} {ts : List Token} {R P : Prop}
    (front : ∀ t us, ts = t :: us → p t → ¬ R)
    (other : (¬ ∃ t us, ts = t :: us ∧ p t) → (R ↔ P)) :
    R ↔ (¬ ∃ t us, ts = t :: us ∧ p t) ∧ P := by
  have both := iff_front (Q := fun _ _ => False)
    (fun t us hts hp => iff_of_false (front t us hts hp) not_false) other
  simp only [and_false, exists_false, or_false] at both
  exact both

/-! ## 2. Readers of expressions -/

section Expressions

variable {n bound : Nat} {ts : List Token} {stuck : Stuck}

/-- In the left side, or in the right side behind an equals sign. -/
theorem readExpr_fails :
    (readExpr ts).Fails stuck ↔
      (readLevel maxLevel ts).Fails stuck ∨
        ∃ a mid, (readLevel maxLevel ts).Yields a mid ∧
          ∃ eq us, mid = eq :: us ∧ eq.isPunctuator "=" ∧ (readLevel maxLevel us).Fails stuck := by
  rw [readExpr]
  refine fails_bind_congr fun a mid hlt => ?_
  dsimp only
  refine iff_front_only (fun t us heq hp => ?_) fun hnot => ?_
  · subst heq
    rw [punctuator?_cons hp]
    exact fails_bind_last fun _ _ _ => not_fails_ok
  · rw [punctuator?_eq_none.mpr hnot]
    exact not_fails_ok

/-- Behind the signs. -/
theorem readLevel_zero_fails :
    (readLevel 0 ts).Fails stuck ↔
      (¬ Leads "+" ts ∧
          ((¬ Leads "-" ts ∧ (readPrimary ts).Fails stuck) ∨
            ∃ t us, ts = t :: us ∧ t.isPunctuator "-" ∧ (readLevel 0 us).Fails stuck)) ∨
        ∃ t us, ts = t :: us ∧ t.isPunctuator "+" ∧ (readLevel 0 us).Fails stuck := by
  rw [readLevel]
  refine iff_front (fun t us heq hp => ?_) fun hnot => ?_
  · subst heq
    rw [punctuator?_cons hp]
    exact fails_bind_last fun _ _ _ => not_fails_ok
  · rw [punctuator?_eq_none.mpr hnot]
    dsimp only
    refine iff_front (fun t us heq hp => ?_) fun hnot => ?_
    · subst heq
      rw [punctuator?_cons hp]
      exact fails_bind_last fun _ _ _ => not_fails_ok
    · rw [punctuator?_eq_none.mpr hnot]

/-- In the first operand of a chain, or in its rest. -/
theorem readLevel_succ_fails :
    (readLevel (n + 1) ts).Fails stuck ↔
      (readLevel n ts).Fails stuck ∨
        ∃ a mid, (readLevel n ts).Yields a mid ∧
          ∃ h : mid.length < ts.length, (readChain n a mid h).Fails stuck := by
  rw [readLevel, fails_bind]

/-- In an operand behind an operator. -/
theorem readChain_fails {a : Expr} {h : ts.length < bound} :
    (readChain n a ts h).Fails stuck ↔
      ∃ op t us, ts = t :: us ∧ t.isPunctuator op.spelling ∧ op.level = n + 1 ∧
        ((readLevel n us).Fails stuck ∨
          ∃ b mid, (readLevel n us).Yields b mid ∧
            ∃ h : mid.length < bound, (readChain n (.binary op a b) mid h).Fails stuck) := by
  rw [readChain]
  split
  · next heq =>
    have hnot := operator?_eq_none.mp heq
    refine iff_of_false not_fails_ok ?_
    rintro ⟨op, t, us, rfl, hp, hlevel, -⟩
    exact hnot op hlevel (leads_cons.mpr hp)
  · next op us hlt heq =>
    obtain ⟨t, rfl, hp, hlevel⟩ := operator?_eq_some.mp heq
    rw [fails_bind]
    constructor
    · rintro (hb | ⟨b, mid, hb, _, hchain⟩)
      · exact ⟨op, t, us, rfl, hp, hlevel, .inl hb⟩
      · exact ⟨op, t, us, rfl, hp, hlevel, .inr ⟨b, mid, hb, _, hchain⟩⟩
    · rintro ⟨op', _, _, hcons, hp', -, h⟩
      cases hcons
      cases Op.spelling_injective (Token.spelling_eq hp hp')
      refine h.imp_right ?_
      rintro ⟨b, mid, hb, _, hchain⟩
      exact ⟨b, mid, hb, by have := hb.shorter; omega, hchain⟩

/-- Reading an expression with the punctuator `ending` behind it stops. -/
def StopsClosed (ending : String) (ts : List Token) (stuck : Stuck) : Prop :=
  (readExpr ts).Fails stuck ∨ ∃ a mid, (readExpr ts).Yields a mid ∧ Misses ending mid stuck

/-- A name or a number comes first. -/
def LeadsAtom (ts : List Token) : Prop :=
  ∃ t us, ts = t :: us ∧
    ((∃ name, t.kind = .ident ∧ t.text = some name) ∨ ∃ value, t.kind = .num (some value))

/-- Where a primary expression was wanted. -/
def Stuck.atPrimary : List Token → Stuck
  | [] => .wanting .number []
  | t :: ts =>
    if t.kind = .num none then ⟨.numberWithoutValue, t :: ts⟩ else .wanting .number (t :: ts)

theorem Stuck.rest_atPrimary (ts : List Token) : (Stuck.atPrimary ts).rest = ts := by
  unfold Stuck.atPrimary
  split
  · exact wanting_rest _ _
  · split
    · rfl
    · exact wanting_rest _ _

/-- In parentheses, in arguments, or before anything is read. -/
theorem readPrimary_fails :
    (readPrimary ts).Fails stuck ↔
      (¬ Leads "(" ts ∧
          ((¬ LeadsAtom ts ∧ Stuck.atPrimary ts = stuck) ∨
            ∃ t us, ts = t :: us ∧ ∃ name, t.kind = .ident ∧ t.text = some name ∧
              ∃ l vs, us = l :: vs ∧ l.isPunctuator "(" ∧ (readArgs vs).Fails stuck)) ∨
        ∃ l us, ts = l :: us ∧ l.isPunctuator "(" ∧ StopsClosed ")" us stuck := by
  rw [readPrimary.eq_def]
  refine iff_front (fun t us heq hp => ?_) fun hnot => ?_
  · subst heq
    rw [punctuator?_cons hp]
    exact fails_bind_congr fun _ _ _ => fails_bind_closing fun _ _ => not_fails_ok
  · rw [punctuator?_eq_none.mpr hnot]
    dsimp only
    cases ts with
    | nil =>
      rw [fails_error]
      constructor
      · refine fun h => .inl ⟨?_, h⟩
        rintro ⟨_, _, heq, -⟩
        cases heq
      · rintro (⟨-, h⟩ | ⟨_, _, heq, -⟩)
        · exact h
        · cases heq
    | cons t us =>
      obtain ⟨kind, loc, text⟩ := t
      unfold LeadsAtom
      rw [exists_front, exists_front, Stuck.atPrimary]
      dsimp only
      cases kind with
      | ident =>
        cases text with
        | none => simp [fails_error]
        | some name =>
          refine Iff.trans (iff_front_only (fun l vs heq hp => ?_) fun hnot => ?_)
            ⟨fun h => .inr ⟨name, rfl, rfl, h⟩, ?_⟩
          · subst heq
            rw [punctuator?_cons hp]
            exact fails_bind_last fun _ _ _ => not_fails_ok
          · rw [punctuator?_eq_none.mpr hnot]
            exact not_fails_ok
          · rintro (⟨hnot, -⟩ | ⟨_, -, -, h⟩)
            · exact absurd (.inl ⟨name, rfl, rfl⟩) hnot
            · exact h
      | num value =>
        cases value with
        | none => simp [fails_error]
        | some value => simp [not_fails_ok]
      | punctuator | keyword | eof => simp [fails_error]

theorem readArgs_fails :
    (readArgs ts).Fails stuck ↔
      ¬ Leads ")" ts ∧ (readMoreArgs [] ts (Nat.le_refl _)).Fails stuck := by
  rw [readArgs]
  refine iff_not_front (fun t us heq hp => ?_) fun hnot => ?_
  · subst heq
    rw [punctuator?_cons hp]
    exact not_fails_ok
  · rw [punctuator?_eq_none.mpr hnot]

/-- In an argument, behind it, or in the arguments behind a comma. -/
theorem readMoreArgs_fails {done : List Expr} {h : ts.length ≤ bound} :
    (readMoreArgs done ts h).Fails stuck ↔
      (readExpr ts).Fails stuck ∨
        ∃ a mid, (readExpr ts).Yields a mid ∧
          ((¬ Leads "," mid ∧ Misses ")" mid stuck) ∨
            ∃ c us, mid = c :: us ∧ c.isPunctuator "," ∧
              ∃ h : us.length ≤ bound, (readMoreArgs (a :: done) us h).Fails stuck) := by
  rw [readMoreArgs]
  refine fails_bind_congr fun a mid hlt => ?_
  dsimp only
  refine iff_front (fun t us heq hp => ?_) fun hnot => ?_
  · subst heq
    rw [punctuator?_cons hp]
    dsimp only
    rw [exists_prop_of_true]
  · rw [punctuator?_eq_none.mpr hnot]
    exact fails_bind_closing fun _ _ => not_fails_ok

end Expressions

/-! ## 3. Readers of statements -/

section Statements

variable {bound : Nat} {ts : List Token} {stuck : Stuck}

/-- In the expression, or behind it. -/
theorem readClause_fails {ending : String} :
    (readClause ending ts).Fails stuck ↔
      ¬ Leads ending ts ∧ StopsClosed ending ts stuck := by
  rw [readClause]
  refine iff_not_front (fun t us heq hp => ?_) fun hnot => ?_
  · subst heq
    rw [punctuator?_cons hp]
    exact not_fails_ok
  · rw [punctuator?_eq_none.mpr hnot]
    exact fails_bind_congr fun _ _ _ => fails_bind_closing fun _ _ => not_fails_ok

/-- Reading a loop stops behind its keyword. -/
def StopsInLoop (us : List Token) (stuck : Stuck) : Prop :=
  Misses "(" us stuck ∨
    ∃ l vs, us = l :: vs ∧ l.isPunctuator "(" ∧
      ((readClause ";" vs).Fails stuck ∨
        ∃ start mid, (readClause ";" vs).Yields start mid ∧
          ((readClause ";" mid).Fails stuck ∨
            ∃ test mid', (readClause ";" mid).Yields test mid' ∧
              ((readClause ")" mid').Fails stuck ∨
                ∃ next mid'', (readClause ")" mid').Yields next mid'' ∧
                  (readStmt mid'').Fails stuck)))

/-- Reading a conditional stops behind its keyword. -/
def StopsInCond (us : List Token) (stuck : Stuck) : Prop :=
  Misses "(" us stuck ∨
    ∃ l vs, us = l :: vs ∧ l.isPunctuator "(" ∧
      ((readExpr vs).Fails stuck ∨
        ∃ test mid, (readExpr vs).Yields test mid ∧
          (Misses ")" mid stuck ∨
            ∃ r ws, mid = r :: ws ∧ r.isPunctuator ")" ∧
              ((readStmt ws).Fails stuck ∨
                ∃ yes mid', (readStmt ws).Yields yes mid' ∧
                  ∃ o xs, mid' = o :: xs ∧ o.isKeyword "else" ∧ (readStmt xs).Fails stuck)))

/-- In a statement of the form that the first token tells. -/
theorem readStmt_fails :
    (readStmt ts).Fails stuck ↔
      (¬ LeadsKeyword "return" ts ∧
          ((¬ LeadsKeyword "if" ts ∧
              ((¬ LeadsKeyword "for" ts ∧
                  ((¬ Leads "\x7b" ts ∧ StopsClosed ";" ts stuck) ∨
                    ∃ l us, ts = l :: us ∧ l.isPunctuator "\x7b" ∧
                      (readBlock [] us (Nat.le_refl _)).Fails stuck)) ∨
                ∃ k us, ts = k :: us ∧ k.isKeyword "for" ∧ StopsInLoop us stuck)) ∨
            ∃ k us, ts = k :: us ∧ k.isKeyword "if" ∧ StopsInCond us stuck)) ∨
        ∃ k us, ts = k :: us ∧ k.isKeyword "return" ∧ StopsClosed ";" us stuck := by
  rw [readStmt]
  -- a return
  refine iff_front (fun k us heq hk => ?_) fun hnot => ?_
  · subst heq
    rw [keyword?_cons hk]
    exact fails_bind_congr fun _ _ _ => fails_bind_closing fun _ _ => not_fails_ok
  rw [keyword?_eq_none.mpr hnot]
  dsimp only
  -- a conditional, with or without an alternative
  refine iff_front (fun k us heq hk => ?_) fun hnot => ?_
  · subst heq
    rw [keyword?_cons hk]
    refine fails_bind_punctuator fun _ _ => fails_bind_congr fun _ _ _ =>
      fails_bind_punctuator fun _ _ => fails_bind_congr fun yes mid _ => ?_
    dsimp only
    refine iff_front_only (fun o xs heq ho => ?_) fun hnot => ?_
    · subst heq
      rw [keyword?_cons ho]
      exact fails_bind_last fun _ _ _ => not_fails_ok
    · rw [keyword?_eq_none.mpr hnot]
      exact not_fails_ok
  rw [keyword?_eq_none.mpr hnot]
  dsimp only
  -- a loop
  refine iff_front (fun k us heq hk => ?_) fun hnot => ?_
  · subst heq
    rw [keyword?_cons hk]
    exact fails_bind_punctuator fun _ _ => fails_bind_congr fun _ _ _ =>
      fails_bind_congr fun _ _ _ => fails_bind_congr fun _ _ _ =>
        fails_bind_last fun _ _ _ => not_fails_ok
  rw [keyword?_eq_none.mpr hnot]
  dsimp only
  -- a block or an expression
  refine iff_front (fun l us heq hl => ?_) fun hnot => ?_
  · subst heq
    rw [punctuator?_cons hl]
    exact fails_bind_last fun _ _ _ => not_fails_ok
  · rw [punctuator?_eq_none.mpr hnot]
    exact fails_bind_congr fun _ _ _ => fails_bind_closing fun _ _ => not_fails_ok

/-- At the end of the tokens, in a statement, or in the statements behind it. -/
theorem readBlock_fails {done : List Stmt} {h : ts.length ≤ bound} :
    (readBlock done ts h).Fails stuck ↔
      ¬ Leads "\x7d" ts ∧
        ((atEnd ts ∧ Stuck.wanting (.punctuator "\x7d") ts = stuck) ∨
          atEnd ts = false ∧
            ((readStmt ts).Fails stuck ∨
              ∃ s mid, (readStmt ts).Yields s mid ∧
                ∃ h : mid.length ≤ bound, (readBlock (s :: done) mid h).Fails stuck)) := by
  rw [readBlock]
  refine iff_not_front (fun r us heq hr => ?_) fun hnot => ?_
  · subst heq
    rw [punctuator?_cons hr]
    exact not_fails_ok
  · rw [punctuator?_eq_none.mpr hnot]
    dsimp only
    cases hend : atEnd ts with
    | true =>
      rw [if_pos rfl, fails_error]
      exact ⟨fun h => .inl ⟨rfl, h⟩, fun h => h.elim (·.2) fun h => absurd h.1 (by decide)⟩
    | false =>
      rw [if_neg Bool.false_ne_true]
      refine Iff.trans (fails_bind_congr fun s mid hlt => ?_)
        ⟨fun h => .inr ⟨rfl, h⟩, fun h => h.elim (fun h => absurd h.1 (by decide)) (·.2)⟩
      have hle : mid.length ≤ bound := by omega
      rw [exists_prop_of_true hle]

end Statements

/-! ## 4. Readers of functions -/

section Functions

variable {bound : Nat} {ts : List Token} {stuck : Stuck}

/-- At a parameter, which may repeat one of those before it, or behind it. -/
theorem readMoreParams_fails {done : List String} {h : ts.length ≤ bound} :
    (readMoreParams done ts h).Fails stuck ↔
      (readIdentifier ts).Fails stuck ∨
        ∃ name mid, (readIdentifier ts).Yields name mid ∧
          ((name ∈ done ∧ ⟨.duplicateParameter name, ts⟩ = stuck) ∨
            name ∉ done ∧
              ((¬ Leads "," mid ∧ Misses ")" mid stuck) ∨
                ∃ c us, mid = c :: us ∧ c.isPunctuator "," ∧
                  ∃ h : us.length ≤ bound, (readMoreParams (name :: done) us h).Fails stuck)) := by
  rw [readMoreParams]
  refine fails_bind_congr fun name mid hlt => ?_
  dsimp only
  by_cases hmem : name ∈ done
  · rw [if_pos (List.contains_iff_mem.mpr hmem)]
    refine Iff.trans fails_error ⟨fun h => .inl ⟨hmem, h⟩, ?_⟩
    rintro (h | h)
    · exact h.2
    · exact absurd hmem h.1
  · rw [if_neg fun h => hmem (List.contains_iff_mem.mp h)]
    refine Iff.trans (iff_front (fun c us heq hc => ?_) fun hnot => ?_)
      ⟨fun h => .inr ⟨hmem, h⟩, fun h => h.elim (fun h => absurd h.1 hmem) (·.2)⟩
    · subst heq
      rw [punctuator?_cons hc]
      dsimp only
      rw [exists_prop_of_true]
    · rw [punctuator?_eq_none.mpr hnot]
      exact fails_bind_closing fun _ _ => not_fails_ok

theorem readParams_fails :
    (readParams ts).Fails stuck ↔
      ¬ Leads ")" ts ∧ (readMoreParams [] ts (Nat.le_refl _)).Fails stuck := by
  rw [readParams]
  refine iff_not_front (fun t us heq hp => ?_) fun hnot => ?_
  · subst heq
    rw [punctuator?_cons hp]
    exact not_fails_ok
  · rw [punctuator?_eq_none.mpr hnot]

/-- In one of the parts of a function, or between them. -/
theorem readFunction_fails :
    (readFunction ts).Fails stuck ↔
      (readIdentifier ts).Fails stuck ∨
        ∃ name us, (readIdentifier ts).Yields name us ∧
          (Misses "(" us stuck ∨
            ∃ l vs, us = l :: vs ∧ l.isPunctuator "(" ∧
              ((readParams vs).Fails stuck ∨
                ∃ params mid, (readParams vs).Yields params mid ∧
                  (Misses "\x7b" mid stuck ∨
                    ∃ o ws, mid = o :: ws ∧ o.isPunctuator "\x7b" ∧
                      (readBlock [] ws (Nat.le_refl _)).Fails stuck))) := by
  rw [readFunction]
  exact fails_bind_congr fun _ _ _ => fails_bind_punctuator fun _ _ =>
    fails_bind_congr fun _ _ _ => fails_bind_punctuator fun _ _ =>
      fails_bind_last fun _ _ _ => not_fails_ok

end Functions

end Surface

end StackCompiler
