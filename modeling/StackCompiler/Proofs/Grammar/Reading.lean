import StackCompiler.Surface.Reading
import StackCompiler.Proofs.Grammar

/-!
# What the readers yield

One lemma for each reader says when it yields a tree and which tokens it leaves. The bounds that
the readings carry for their termination are forgotten here (`Outcome.Yields`).
-/

namespace StackCompiler

/-! ## 1. Tokens in front -/

theorem Token.isPunctuator_iff {t : Token} {s : String} :
    t.isPunctuator s ↔ t.kind = .punctuator ∧ t.text = some s := by
  unfold isPunctuator
  rw [Bool.and_eq_true, beq_iff_eq, beq_iff_eq]

theorem Token.isKeyword_iff {t : Token} {s : String} :
    t.isKeyword s ↔ t.kind = .keyword ∧ t.text = some s := by
  unfold isKeyword
  rw [Bool.and_eq_true, beq_iff_eq, beq_iff_eq]

theorem Token.spelling_eq {t : Token} {s s' : String} (h : t.isPunctuator s)
    (h' : t.isPunctuator s') : s = s' := by
  have hs := (isPunctuator_iff.mp h).2
  have hs' := (isPunctuator_iff.mp h').2
  exact Option.some.inj (hs ▸ hs')

namespace Surface

open Grammar (Leads leads_cons)

/-- The keyword `s` comes first. -/
def LeadsKeyword (s : String) (ts : List Token) : Prop :=
  ∃ t us, ts = t :: us ∧ t.isKeyword s

theorem leadsKeyword_cons {s : String} {t : Token} {ts : List Token} :
    LeadsKeyword s (t :: ts) ↔ t.isKeyword s := by
  refine ⟨?_, fun h => ⟨t, ts, rfl, h⟩⟩
  rintro ⟨_, _, h, hp⟩
  cases h
  exact hp

theorem after?_cons {p : Token → Bool} {t : Token} {ts : List Token} (h : p t) :
    after? p (t :: ts) = some ⟨ts, Nat.lt_succ_self _⟩ := by
  rw [after?, if_pos h]

theorem after?_eq_some {p : Token → Bool} {ts us : List Token} {h : us.length < ts.length}
    (ha : after? p ts = some ⟨us, h⟩) : ∃ t, ts = t :: us ∧ p t := by
  cases ts with
  | nil => cases ha
  | cons t ts =>
    rw [after?] at ha
    split at ha
    · next hp =>
      cases ha
      exact ⟨t, rfl, hp⟩
    · cases ha

theorem after?_eq_none {p : Token → Bool} {ts : List Token}
    (h : ∀ t us, ts = t :: us → ¬ p t) : after? p ts = none := by
  cases ts with
  | nil => rfl
  | cons t ts => rw [after?, if_neg (h t ts rfl)]

theorem punctuator?_cons {s : String} {t : Token} {ts : List Token} (h : t.isPunctuator s) :
    punctuator? s (t :: ts) = some ⟨ts, Nat.lt_succ_self _⟩ :=
  after?_cons h

theorem punctuator?_eq_some {s : String} {ts us : List Token} {h : us.length < ts.length}
    (hp : punctuator? s ts = some ⟨us, h⟩) : ∃ t, ts = t :: us ∧ t.isPunctuator s :=
  after?_eq_some hp

theorem punctuator?_eq_none {s : String} {ts : List Token} :
    punctuator? s ts = none ↔ ¬ Leads s ts := by
  constructor
  · rintro h ⟨t, us, rfl, hp⟩
    rw [punctuator?_cons hp] at h
    cases h
  · intro h
    exact after?_eq_none fun t us hts hp => h ⟨t, us, hts, hp⟩

theorem keyword?_cons {s : String} {t : Token} {ts : List Token} (h : t.isKeyword s) :
    keyword? s (t :: ts) = some ⟨ts, Nat.lt_succ_self _⟩ :=
  after?_cons h

theorem keyword?_eq_none {s : String} {ts : List Token} :
    keyword? s ts = none ↔ ¬ LeadsKeyword s ts := by
  constructor
  · rintro h ⟨t, us, rfl, hp⟩
    rw [keyword?_cons hp] at h
    cases h
  · intro h
    exact after?_eq_none fun t us hts hp => h ⟨t, us, hts, hp⟩

/-! ## 2. Operators in front -/

/-- Looking up a spelling at a level finds the operator that has both. -/
theorem Op.ofSpelling?_eq_some {n : Nat} {s : String} {op : Op} :
    Op.ofSpelling? n s = some op ↔ op.level = n ∧ op.spelling = s := by
  constructor
  · intro h
    have := List.find?_some h
    rwa [Bool.and_eq_true, beq_iff_eq, beq_iff_eq] at this
  · rintro ⟨rfl, rfl⟩
    cases op <;> rfl

/-- No two operators are written alike. -/
theorem Op.spelling_injective {op op' : Op} (h : op.spelling = op'.spelling) : op = op' := by
  cases op <;> cases op' <;> first | rfl | exact absurd h (by decide)

theorem operator?_eq_some {n : Nat} {ts us : List Token} {op : Op} {h : us.length < ts.length} :
    operator? n ts = some (op, ⟨us, h⟩) ↔
      ∃ t, ts = t :: us ∧ t.isPunctuator op.spelling ∧ op.level = n := by
  cases ts with
  | nil => exact absurd h (Nat.not_lt_zero _)
  | cons t ts =>
    rw [operator?]
    constructor
    · intro ho
      split at ho
      · next hk =>
        obtain ⟨op', hop, heq⟩ := Option.map_eq_some_iff.mp ho
        cases heq
        obtain ⟨s, hs, hfound⟩ := Option.bind_eq_some_iff.mp hop
        obtain ⟨hlevel, rfl⟩ := Op.ofSpelling?_eq_some.mp hfound
        exact ⟨t, rfl, Token.isPunctuator_iff.mpr ⟨hk, hs⟩, hlevel⟩
      · cases ho
    · rintro ⟨_, heq, hp, hlevel⟩
      cases heq
      obtain ⟨hk, hs⟩ := Token.isPunctuator_iff.mp hp
      rw [if_pos hk, hs, Option.bind_some, Op.ofSpelling?_eq_some.mpr ⟨hlevel, rfl⟩]
      rfl

/-- No operator of the level `n` comes first. -/
theorem operator?_eq_none {n : Nat} {ts : List Token} :
    operator? n ts = none ↔ ∀ op : Op, op.level = n → ¬ Leads op.spelling ts := by
  constructor
  · rintro h op hlevel ⟨t, us, rfl, hp⟩
    rw [operator?_eq_some (h := by simp) |>.mpr ⟨t, rfl, hp, hlevel⟩] at h
    cases h
  · intro h
    cases ho : operator? n ts with
    | none => rfl
    | some found =>
      obtain ⟨op, us, hlt⟩ := found
      obtain ⟨t, rfl, hp, hlevel⟩ := operator?_eq_some.mp ho
      exact absurd ⟨t, us, rfl, hp⟩ (h op hlevel)

/-! ## 3. What is yielded -/

/-- The outcome is the tree `v`, with the tokens `rest` left. -/
def Outcome.Yields {α : Type} {bound : Nat} (o : Outcome α bound) (v : α) (rest : List Token) :
    Prop :=
  ∃ h, o = .ok ⟨v, rest, h⟩

section Yields

variable {α β : Type} {bound bound' : Nat}

theorem Outcome.Yields.shorter {o : Outcome α bound} {v : α} {rest : List Token}
    (h : o.Yields v rest) : rest.length < bound :=
  h.1

/-- Reading yields at most one tree. -/
theorem yields_ok {v v' : α} {rest rest' : List Token} {h : rest'.length < bound} :
    Outcome.Yields (.ok ⟨v', rest', h⟩ : Outcome α bound) v rest ↔ v' = v ∧ rest' = rest := by
  constructor
  · rintro ⟨_, heq⟩
    cases heq
    exact ⟨rfl, rfl⟩
  · rintro ⟨rfl, rfl⟩
    exact ⟨h, rfl⟩

theorem not_yields_error {stuck : Stuck} {v : α} {rest : List Token} :
    ¬ Outcome.Yields (.error stuck : Outcome α bound) v rest := by
  rintro ⟨_, h⟩
  cases h

theorem yields_bind {o : Outcome α bound} {f : Reading α bound → Outcome β bound'} {v : β}
    {rest : List Token} :
    Outcome.Yields (o >>= f) v rest ↔
      ∃ a mid, o.Yields a mid ∧ ∃ h, Outcome.Yields (f ⟨a, mid, h⟩) v rest := by
  constructor
  · rintro ⟨h, heq⟩
    cases o with
    | error stuck => cases heq
    | ok r =>
      obtain ⟨a, mid, hlt⟩ := r
      exact ⟨a, mid, ⟨hlt, rfl⟩, hlt, h, heq⟩
  · rintro ⟨a, mid, ⟨_, rfl⟩, _, h⟩
    exact h

end Yields

theorem readPunctuator_yields {s : String} {ts rest : List Token} {u : Unit} :
    (readPunctuator s ts).Yields u rest ↔ ∃ t, ts = t :: rest ∧ t.isPunctuator s := by
  rw [readPunctuator]
  split
  · next us h heq =>
    obtain ⟨t, rfl, hp⟩ := punctuator?_eq_some heq
    rw [yields_ok]
    constructor
    · rintro ⟨-, rfl⟩
      exact ⟨t, rfl, hp⟩
    · rintro ⟨_, hcons, -⟩
      cases hcons
      exact ⟨rfl, rfl⟩
  · next heq =>
    refine iff_of_false not_yields_error ?_
    rintro ⟨t, rfl, hp⟩
    exact absurd ⟨t, rest, rfl, hp⟩ (punctuator?_eq_none.mp heq)

theorem readIdentifier_yields {ts rest : List Token} {name : String} :
    (readIdentifier ts).Yields name rest ↔
      ∃ t, ts = t :: rest ∧ t.kind = .ident ∧ t.text = some name := by
  rw [readIdentifier]
  cases ts with
  | nil =>
    refine iff_of_false not_yields_error ?_
    rintro ⟨_, h, -⟩
    cases h
  | cons t us =>
    rw [name?]
    by_cases hk : t.kind = .ident
    · cases ht : t.text with
      | none =>
        rw [if_pos hk]
        refine iff_of_false not_yields_error ?_
        rintro ⟨_, heq, -, htext⟩
        cases heq
        rw [ht] at htext
        cases htext
      | some found =>
        rw [if_pos hk, Option.map_some]
        dsimp only
        rw [yields_ok]
        constructor
        · rintro ⟨rfl, rfl⟩
          exact ⟨t, rfl, hk, ht⟩
        · rintro ⟨_, heq, -, htext⟩
          cases heq
          exact ⟨Option.some.inj (ht.symm.trans htext), rfl⟩
    · rw [if_neg hk]
      refine iff_of_false not_yields_error ?_
      rintro ⟨_, heq, hident, -⟩
      cases heq
      exact absurd hident hk

/-! ## 4. Readers of expressions -/

/-- A fact that depends on whether a token with the property `p` comes first. -/
theorem iff_front {p : Token → Bool} {ts : List Token} {R P : Prop} {Q : Token → List Token → Prop}
    (front : ∀ t us, ts = t :: us → p t → (R ↔ Q t us))
    (other : (¬ ∃ t us, ts = t :: us ∧ p t) → (R ↔ P)) :
    R ↔ ((¬ ∃ t us, ts = t :: us ∧ p t) ∧ P) ∨ ∃ t us, ts = t :: us ∧ p t ∧ Q t us := by
  by_cases h : ∃ t us, ts = t :: us ∧ p t
  · obtain ⟨t, us, rfl, hp⟩ := h
    rw [front t us rfl hp]
    constructor
    · exact fun hQ => .inr ⟨t, us, rfl, hp, hQ⟩
    · rintro (⟨hnot, -⟩ | ⟨_, _, heq, -, hQ⟩)
      · exact absurd ⟨t, us, rfl, hp⟩ hnot
      · cases heq
        exact hQ
  · rw [other h]
    constructor
    · exact fun hP => .inl ⟨h, hP⟩
    · rintro (⟨-, hP⟩ | ⟨t, us, hts, hp, -⟩)
      · exact hP
      · exact absurd ⟨t, us, hts, hp⟩ h

/-- A fact about the first token and those after it. -/
theorem exists_front {t : Token} {ts : List Token} {P : Token → List Token → Prop} :
    (∃ t' us, t :: ts = t' :: us ∧ P t' us) ↔ P t ts := by
  refine ⟨?_, fun h => ⟨t, ts, rfl, h⟩⟩
  rintro ⟨_, _, h, hP⟩
  cases h
  exact hP

/-- Reading on behind a tree that was read. -/
theorem yields_bind_congr {α β : Type} {bound bound' : Nat} {o : Outcome α bound}
    {f : Reading α bound → Outcome β bound'} {v : β} {rest : List Token}
    {P : α → List Token → Prop}
    (h : ∀ a mid (hlt : mid.length < bound), Outcome.Yields (f ⟨a, mid, hlt⟩) v rest ↔ P a mid) :
    Outcome.Yields (o >>= f) v rest ↔ ∃ a mid, o.Yields a mid ∧ P a mid := by
  rw [yields_bind]
  refine exists_congr fun a => exists_congr fun mid => and_congr_right fun ha => ?_
  rw [exists_prop_of_true ha.shorter, h]

/-- Wrapping up the last tree that was read. -/
theorem yields_bind_last {α β : Type} {bound bound' : Nat} {o : Outcome α bound}
    {f : Reading α bound → Outcome β bound'} {v : β} {rest : List Token} {wrap : α → β}
    (h : ∀ a mid (hlt : mid.length < bound),
      Outcome.Yields (f ⟨a, mid, hlt⟩) v rest ↔ wrap a = v ∧ mid = rest) :
    Outcome.Yields (o >>= f) v rest ↔ ∃ a, o.Yields a rest ∧ wrap a = v := by
  rw [yields_bind_congr h]
  constructor
  · rintro ⟨a, mid, ha, hv, rfl⟩
    exact ⟨a, ha, hv⟩
  · rintro ⟨a, ha, hv⟩
    exact ⟨a, rest, ha, hv, rfl⟩

/-- Reading on behind a punctuator that has to come. -/
theorem yields_bind_punctuator {β : Type} {bound : Nat} {s : String} {ts : List Token}
    {f : Reading Unit ts.length → Outcome β bound} {v : β} {rest : List Token}
    {P : List Token → Prop}
    (h : ∀ mid (hlt : mid.length < ts.length), Outcome.Yields (f ⟨(), mid, hlt⟩) v rest ↔ P mid) :
    Outcome.Yields (readPunctuator s ts >>= f) v rest ↔
      ∃ t mid, ts = t :: mid ∧ t.isPunctuator s ∧ P mid := by
  rw [yields_bind_congr (P := fun _ mid => P mid) fun _ mid hlt => h mid hlt]
  constructor
  · rintro ⟨_, mid, hp, hP⟩
    obtain ⟨t, hts, hs⟩ := readPunctuator_yields.mp hp
    exact ⟨t, mid, hts, hs, hP⟩
  · rintro ⟨t, mid, hts, hs, hP⟩
    exact ⟨(), mid, readPunctuator_yields.mpr ⟨t, hts, hs⟩, hP⟩

/-- Wrapping up behind a punctuator that has to come. -/
theorem yields_bind_closing {β : Type} {bound : Nat} {s : String} {ts : List Token}
    {f : Reading Unit ts.length → Outcome β bound} {v v' : β} {rest : List Token}
    (h : ∀ mid (hlt : mid.length < ts.length),
      Outcome.Yields (f ⟨(), mid, hlt⟩) v rest ↔ v' = v ∧ mid = rest) :
    Outcome.Yields (readPunctuator s ts >>= f) v rest ↔
      ∃ t, ts = t :: rest ∧ t.isPunctuator s ∧ v' = v := by
  rw [yields_bind_punctuator h]
  constructor
  · rintro ⟨t, mid, hts, hs, hv, rfl⟩
    exact ⟨t, hts, hs, hv⟩
  · rintro ⟨t, hts, hs, hv⟩
    exact ⟨t, rest, hts, hs, hv, rfl⟩

section Expressions

variable {n bound : Nat} {ts rest : List Token} {e : Expr} {es : List Expr}

/-- A comparison chain, and behind an equals sign a second one. -/
theorem readExpr_yields :
    (readExpr ts).Yields e rest ↔
      ∃ a mid, (readLevel maxLevel ts).Yields a mid ∧
        ((¬ Leads "=" mid ∧ a = e ∧ mid = rest) ∨
          ∃ eq us, mid = eq :: us ∧ eq.isPunctuator "=" ∧
            ∃ b, (readLevel maxLevel us).Yields b rest ∧ .assign a b (startOf 0 ts) = e) := by
  rw [readExpr]
  refine yields_bind_congr fun a mid hlt => ?_
  dsimp only
  refine iff_front (fun t us heq hp => ?_) fun hnot => ?_
  · subst heq
    rw [punctuator?_cons hp]
    exact yields_bind_last fun _ _ _ => yields_ok
  · rw [punctuator?_eq_none.mpr hnot]
    exact yields_ok

/-- Signs in front of a primary expression. -/
theorem readLevel_zero_yields :
    (readLevel 0 ts).Yields e rest ↔
      (¬ Leads "+" ts ∧
          ((¬ Leads "-" ts ∧ (readPrimary ts).Yields e rest) ∨
            ∃ t us, ts = t :: us ∧ t.isPunctuator "-" ∧
              ∃ a, (readLevel 0 us).Yields a rest ∧ .neg a = e)) ∨
        ∃ t us, ts = t :: us ∧ t.isPunctuator "+" ∧
          ∃ a, (readLevel 0 us).Yields a rest ∧ a = e := by
  rw [readLevel]
  refine iff_front (fun t us heq hp => ?_) fun hnot => ?_
  · subst heq
    rw [punctuator?_cons hp]
    exact yields_bind_last fun _ _ _ => yields_ok
  · rw [punctuator?_eq_none.mpr hnot]
    dsimp only
    refine iff_front (fun t us heq hp => ?_) fun hnot => ?_
    · subst heq
      rw [punctuator?_cons hp]
      exact yields_bind_last fun _ _ _ => yields_ok
    · rw [punctuator?_eq_none.mpr hnot]

/-- The first operand of a chain, and the rest of the chain. -/
theorem readLevel_succ_yields :
    (readLevel (n + 1) ts).Yields e rest ↔
      ∃ a mid, (readLevel n ts).Yields a mid ∧
        ∃ h : mid.length < ts.length, (readChain n a mid h).Yields e rest := by
  rw [readLevel, yields_bind]

/-- The end of a chain, or an operator with its right side and the rest of the chain. -/
theorem readChain_yields {a : Expr} {h : ts.length < bound} :
    (readChain n a ts h).Yields e rest ↔
      ((∀ op : Op, op.level = n + 1 → ¬ Leads op.spelling ts) ∧ a = e ∧ ts = rest) ∨
        ∃ op t us, ts = t :: us ∧ t.isPunctuator op.spelling ∧ op.level = n + 1 ∧
          ∃ b mid, (readLevel n us).Yields b mid ∧
            ∃ h : mid.length < bound, (readChain n (.binary op a b) mid h).Yields e rest := by
  rw [readChain]
  split
  · next heq =>
    have hnot := operator?_eq_none.mp heq
    rw [yields_ok]
    constructor
    · exact fun h => .inl ⟨hnot, h⟩
    · rintro (⟨-, h⟩ | ⟨op, t, us, rfl, hp, hlevel, -⟩)
      · exact h
      · exact absurd (leads_cons.mpr hp) (hnot op hlevel)
  · next op us hlt heq =>
    obtain ⟨t, rfl, hp, hlevel⟩ := operator?_eq_some.mp heq
    rw [yields_bind]
    constructor
    · rintro ⟨b, mid, hb, _, hchain⟩
      exact .inr ⟨op, t, us, rfl, hp, hlevel, b, mid, hb, _, hchain⟩
    · rintro (⟨hnot, -⟩ | ⟨op', _, _, hcons, hp', -, b, mid, hb, _, hchain⟩)
      · exact absurd (leads_cons.mpr hp) (hnot op hlevel)
      · cases hcons
        cases Op.spelling_injective (Token.spelling_eq hp hp')
        exact ⟨b, mid, hb, hb.shorter, hchain⟩

/-- What comes behind a name: nothing that belongs to it, or the arguments of a call. -/
theorem readPrimary_yields :
    (readPrimary ts).Yields e rest ↔
      (¬ Leads "(" ts ∧
          ∃ t us, ts = t :: us ∧
            ((∃ name, t.kind = .ident ∧ t.text = some name ∧
                ((¬ Leads "(" us ∧ .var name t.loc = e ∧ us = rest) ∨
                  ∃ l vs, us = l :: vs ∧ l.isPunctuator "(" ∧
                    ∃ args, (readArgs vs).Yields args rest ∧ .call name args t.loc = e)) ∨
              ∃ value, t.kind = .num (some value) ∧ .num value = e ∧ us = rest)) ∨
        ∃ l us, ts = l :: us ∧ l.isPunctuator "(" ∧
          ∃ a mid, (readExpr us).Yields a mid ∧
            ∃ r, mid = r :: rest ∧ r.isPunctuator ")" ∧ a = e := by
  rw [readPrimary.eq_def]
  refine iff_front (fun t us heq hp => ?_) fun hnot => ?_
  · subst heq
    rw [punctuator?_cons hp]
    exact yields_bind_congr fun _ _ _ => yields_bind_closing fun _ _ => yields_ok
  · rw [punctuator?_eq_none.mpr hnot]
    dsimp only
    cases ts with
    | nil =>
      refine iff_of_false not_yields_error ?_
      rintro ⟨_, _, h, -⟩
      cases h
    | cons t us =>
      rw [exists_front]
      obtain ⟨kind, loc, text⟩ := t
      dsimp only
      cases kind with
      | ident =>
        cases text with
        | none =>
          refine iff_of_false not_yields_error ?_
          rintro (⟨_, -, htext, -⟩ | ⟨_, hnum, -⟩)
          · cases htext
          · cases hnum
        | some name =>
          refine Iff.trans (iff_front (fun l vs heq hp => ?_) fun hnot => ?_)
            ⟨fun h => .inl ⟨name, rfl, rfl, h⟩, ?_⟩
          · subst heq
            rw [punctuator?_cons hp]
            exact yields_bind_last fun _ _ _ => yields_ok
          · rw [punctuator?_eq_none.mpr hnot]
            exact yields_ok
          · rintro (⟨_, -, htext, h⟩ | ⟨_, hnum, -⟩)
            · cases htext
              exact h
            · cases hnum
      | num value =>
        cases value with
        | none =>
          refine iff_of_false not_yields_error ?_
          rintro (⟨_, hident, -⟩ | ⟨_, hnum, -⟩)
          · cases hident
          · cases hnum
        | some value =>
          dsimp only
          rw [yields_ok]
          constructor
          · rintro ⟨he, hr⟩
            exact .inr ⟨value, rfl, he, hr⟩
          · rintro (⟨_, hident, -⟩ | ⟨_, hnum, he, hr⟩)
            · cases hident
            · cases hnum
              exact ⟨he, hr⟩
      | punctuator | keyword | eof =>
        refine iff_of_false not_yields_error ?_
        rintro (⟨_, hident, -⟩ | ⟨_, hnum, -⟩)
        · cases hident
        · cases hnum

/-- The arguments of a call with the parenthesis that closes them. -/
theorem readArgs_yields :
    (readArgs ts).Yields es rest ↔
      (¬ Leads ")" ts ∧ (readMoreArgs [] ts (Nat.le_refl _)).Yields es rest) ∨
        ∃ r us, ts = r :: us ∧ r.isPunctuator ")" ∧ [] = es ∧ us = rest := by
  rw [readArgs]
  refine iff_front (fun t us heq hp => ?_) fun hnot => ?_
  · subst heq
    rw [punctuator?_cons hp]
    exact yields_ok
  · rw [punctuator?_eq_none.mpr hnot]

/-- An argument, and behind a comma the others. -/
theorem readMoreArgs_yields {done : List Expr} {h : ts.length ≤ bound} :
    (readMoreArgs done ts h).Yields es rest ↔
      ∃ a mid, (readExpr ts).Yields a mid ∧
        ((¬ Leads "," mid ∧ ∃ r, mid = r :: rest ∧ r.isPunctuator ")" ∧ (a :: done).reverse = es) ∨
          ∃ c us, mid = c :: us ∧ c.isPunctuator "," ∧
            ∃ h : us.length ≤ bound, (readMoreArgs (a :: done) us h).Yields es rest) := by
  rw [readMoreArgs]
  refine yields_bind_congr fun a mid hlt => ?_
  dsimp only
  refine iff_front (fun t us heq hp => ?_) fun hnot => ?_
  · subst heq
    rw [punctuator?_cons hp]
    dsimp only
    rw [exists_prop_of_true]
  · rw [punctuator?_eq_none.mpr hnot]
    exact yields_bind_closing fun _ _ => yields_ok

end Expressions

/-! ## 5. Readers of statements -/

section Statements

variable {bound : Nat} {ts rest : List Token} {s : Stmt} {body : List Stmt}

/-- An absent clause, or an expression with the punctuator behind it. -/
theorem readClause_yields {ending : String} {clause : Option Expr} :
    (readClause ending ts).Yields clause rest ↔
      (¬ Leads ending ts ∧
          ∃ a mid, (readExpr ts).Yields a mid ∧
            ∃ z, mid = z :: rest ∧ z.isPunctuator ending ∧ some a = clause) ∨
        ∃ z us, ts = z :: us ∧ z.isPunctuator ending ∧ none = clause ∧ us = rest := by
  rw [readClause]
  refine iff_front (fun t us heq hp => ?_) fun hnot => ?_
  · subst heq
    rw [punctuator?_cons hp]
    exact yields_ok
  · rw [punctuator?_eq_none.mpr hnot]
    exact yields_bind_congr fun _ _ _ => yields_bind_closing fun _ _ => yields_ok

/-- The five forms of a statement, by the token in front. -/
theorem readStmt_yields :
    (readStmt ts).Yields s rest ↔
      (¬ LeadsKeyword "return" ts ∧
          ((¬ LeadsKeyword "if" ts ∧
              ((¬ LeadsKeyword "for" ts ∧
                  ((¬ Leads "\x7b" ts ∧
                      ∃ a mid, (readExpr ts).Yields a mid ∧
                        ∃ z, mid = z :: rest ∧ z.isPunctuator ";" ∧ .expr a = s) ∨
                    ∃ l us, ts = l :: us ∧ l.isPunctuator "\x7b" ∧
                      ∃ body, (readBlock [] us (Nat.le_refl _)).Yields body rest ∧
                        .block body = s)) ∨
                ∃ k us, ts = k :: us ∧ k.isKeyword "for" ∧
                  ∃ l vs, us = l :: vs ∧ l.isPunctuator "(" ∧
                    ∃ start mid, (readClause ";" vs).Yields start mid ∧
                      ∃ test mid', (readClause ";" mid).Yields test mid' ∧
                        ∃ next mid'', (readClause ")" mid').Yields next mid'' ∧
                          ∃ body, (readStmt mid'').Yields body rest ∧
                            .loop start test next body = s)) ∨
            ∃ k us, ts = k :: us ∧ k.isKeyword "if" ∧
              ∃ l vs, us = l :: vs ∧ l.isPunctuator "(" ∧
                ∃ test mid, (readExpr vs).Yields test mid ∧
                  ∃ r ws, mid = r :: ws ∧ r.isPunctuator ")" ∧
                    ∃ yes mid', (readStmt ws).Yields yes mid' ∧
                      ((¬ LeadsKeyword "else" mid' ∧ .cond test yes none = s ∧ mid' = rest) ∨
                        ∃ o xs, mid' = o :: xs ∧ o.isKeyword "else" ∧
                          ∃ no, (readStmt xs).Yields no rest ∧
                            .cond test yes (some no) = s))) ∨
        ∃ k us, ts = k :: us ∧ k.isKeyword "return" ∧
          ∃ a mid, (readExpr us).Yields a mid ∧
            ∃ z, mid = z :: rest ∧ z.isPunctuator ";" ∧ .ret a = s := by
  rw [readStmt]
  -- a return
  refine iff_front (fun k us heq hk => ?_) fun hnot => ?_
  · subst heq
    rw [keyword?_cons hk]
    exact yields_bind_congr fun _ _ _ => yields_bind_closing fun _ _ => yields_ok
  rw [keyword?_eq_none.mpr hnot]
  dsimp only
  -- a conditional, with or without an alternative
  refine iff_front (fun k us heq hk => ?_) fun hnot => ?_
  · subst heq
    rw [keyword?_cons hk]
    refine yields_bind_punctuator fun _ _ => yields_bind_congr fun _ _ _ =>
      yields_bind_punctuator fun _ _ => yields_bind_congr fun yes mid _ => ?_
    dsimp only
    refine iff_front (fun o xs heq ho => ?_) fun hnot => ?_
    · subst heq
      rw [keyword?_cons ho]
      exact yields_bind_last fun _ _ _ => yields_ok
    · rw [keyword?_eq_none.mpr hnot]
      exact yields_ok
  rw [keyword?_eq_none.mpr hnot]
  dsimp only
  -- a loop
  refine iff_front (fun k us heq hk => ?_) fun hnot => ?_
  · subst heq
    rw [keyword?_cons hk]
    exact yields_bind_punctuator fun _ _ => yields_bind_congr fun _ _ _ =>
      yields_bind_congr fun _ _ _ => yields_bind_congr fun _ _ _ =>
        yields_bind_last fun _ _ _ => yields_ok
  rw [keyword?_eq_none.mpr hnot]
  dsimp only
  -- a block or an expression
  refine iff_front (fun l us heq hl => ?_) fun hnot => ?_
  · subst heq
    rw [punctuator?_cons hl]
    exact yields_bind_last fun _ _ _ => yields_ok
  · rw [punctuator?_eq_none.mpr hnot]
    exact yields_bind_congr fun _ _ _ => yields_bind_closing fun _ _ => yields_ok

/-- The brace that closes a block, or a statement and the others. -/
theorem readBlock_yields {done : List Stmt} {h : ts.length ≤ bound} :
    (readBlock done ts h).Yields body rest ↔
      (¬ Leads "\x7d" ts ∧ atEnd ts = false ∧
          ∃ s mid, (readStmt ts).Yields s mid ∧
            ∃ h : mid.length ≤ bound, (readBlock (s :: done) mid h).Yields body rest) ∨
        ∃ r us, ts = r :: us ∧ r.isPunctuator "\x7d" ∧ done.reverse = body ∧ us = rest := by
  rw [readBlock]
  refine iff_front (fun r us heq hr => ?_) fun hnot => ?_
  · subst heq
    rw [punctuator?_cons hr]
    exact yields_ok
  · rw [punctuator?_eq_none.mpr hnot]
    dsimp only
    cases hend : atEnd ts with
    | true =>
      refine iff_of_false not_yields_error ?_
      rintro ⟨h, -⟩
      cases h
    | false =>
      rw [if_neg Bool.false_ne_true]
      refine Iff.trans (yields_bind_congr fun s mid hlt => ?_) ⟨fun h => ⟨rfl, h⟩, fun h => h.2⟩
      have hle : mid.length ≤ bound := by omega
      rw [exists_prop_of_true hle]

end Statements

/-! ## 6. Readers of functions -/

section Functions

variable {bound : Nat} {ts rest : List Token} {names : List String}

/-- A parameter that is not yet there, and behind a comma the others. -/
theorem readMoreParams_yields {done : List String} {h : ts.length ≤ bound} :
    (readMoreParams done ts h).Yields names rest ↔
      ∃ name mid, (readIdentifier ts).Yields name mid ∧ name ∉ done ∧
        ((¬ Leads "," mid ∧
            ∃ r, mid = r :: rest ∧ r.isPunctuator ")" ∧ (name :: done).reverse = names) ∨
          ∃ c us, mid = c :: us ∧ c.isPunctuator "," ∧
            ∃ h : us.length ≤ bound, (readMoreParams (name :: done) us h).Yields names rest) := by
  rw [readMoreParams]
  refine yields_bind_congr fun name mid hlt => ?_
  dsimp only
  by_cases hmem : name ∈ done
  · rw [if_pos (List.contains_iff_mem.mpr hmem)]
    exact ⟨fun h => absurd h not_yields_error, fun h => absurd hmem h.1⟩
  · rw [if_neg fun h => hmem (List.contains_iff_mem.mp h)]
    refine Iff.trans (iff_front (fun c us heq hc => ?_) fun hnot => ?_)
      ⟨fun h => ⟨hmem, h⟩, fun h => h.2⟩
    · subst heq
      rw [punctuator?_cons hc]
      dsimp only
      rw [exists_prop_of_true]
    · rw [punctuator?_eq_none.mpr hnot]
      exact yields_bind_closing fun _ _ => yields_ok

/-- The parameters of a function with the parenthesis that closes them. -/
theorem readParams_yields :
    (readParams ts).Yields names rest ↔
      (¬ Leads ")" ts ∧ (readMoreParams [] ts (Nat.le_refl _)).Yields names rest) ∨
        ∃ r us, ts = r :: us ∧ r.isPunctuator ")" ∧ [] = names ∧ us = rest := by
  rw [readParams]
  refine iff_front (fun t us heq hp => ?_) fun hnot => ?_
  · subst heq
    rw [punctuator?_cons hp]
    exact yields_ok
  · rw [punctuator?_eq_none.mpr hnot]

/-- A function from its name on. -/
theorem readFunction_yields {f : Function} :
    (readFunction ts).Yields f rest ↔
      ∃ name us, (readIdentifier ts).Yields name us ∧
        ∃ l vs, us = l :: vs ∧ l.isPunctuator "(" ∧
          ∃ params mid, (readParams vs).Yields params mid ∧
            ∃ o ws, mid = o :: ws ∧ o.isPunctuator "\x7b" ∧
              ∃ body, (readBlock [] ws (Nat.le_refl _)).Yields body rest ∧
                ⟨name, startOf 0 ts, params, body⟩ = f := by
  rw [readFunction]
  exact yields_bind_congr fun _ _ _ => yields_bind_punctuator fun _ _ =>
    yields_bind_congr fun _ _ _ => yields_bind_punctuator fun _ _ =>
      yields_bind_last fun _ _ _ => yields_ok

end Functions

end Surface

end StackCompiler
