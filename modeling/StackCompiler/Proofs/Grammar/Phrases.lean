import StackCompiler.Proofs.Grammar.Reading

/-!
# Phrases of the grammar

What every phrase of the grammar has in common, whatever it denotes.

* No phrase holds an end marker (`Program.noEnd`).
* Which tokens an expression and a statement start with (`Assignment.starts`, `Statement.starts`).
* A phrase that is derivable at all has a derivation in which every `else` belongs to the nearest
  open `if` (`Program.exists_elsesNearest`).
-/

namespace StackCompiler

namespace Grammar

variable {slot : String → Nat}

/-! ## 1. No end marker -/

/-- There is no end marker among the tokens. -/
def NoEnd (ts : List Token) : Prop :=
  ∀ t ∈ ts, t.kind ≠ .eof

namespace NoEnd

theorem nil : NoEnd [] :=
  fun _ h => by cases h

theorem append {ts us : List Token} (hts : NoEnd ts) (hus : NoEnd us) : NoEnd (ts ++ us) :=
  fun t h => (List.mem_append.mp h).elim (hts t) (hus t)

theorem cons {t : Token} {ts : List Token} (ht : t.kind ≠ .eof) (hts : NoEnd ts) :
    NoEnd (t :: ts) :=
  List.forall_mem_cons.mpr ⟨ht, hts⟩

theorem ident {t : Token} {ts : List Token} (ht : t.kind = .ident) (hts : NoEnd ts) :
    NoEnd (t :: ts) :=
  cons (fun h => by rw [ht] at h; cases h) hts

theorem punctuator {t : Token} {s : String} {ts : List Token} (ht : t.isPunctuator s)
    (hts : NoEnd ts) : NoEnd (t :: ts) :=
  cons (fun h => by rw [(Token.isPunctuator_iff.mp ht).1] at h; cases h) hts

theorem keyword {t : Token} {s : String} {ts : List Token} (ht : t.isKeyword s)
    (hts : NoEnd ts) : NoEnd (t :: ts) :=
  cons (fun h => by rw [(Token.isKeyword_iff.mp ht).1] at h; cases h) hts

end NoEnd

mutual

theorem Assignment.noEnd {ts : List Token} {e : Expr} : Assignment slot ts e → NoEnd ts
  | .plain h => h.noEnd
  | .store ha heq hb => ha.noEnd.append (.punctuator heq hb.noEnd)

theorem Level.noEnd {n : Nat} {ts : List Token} {e : Expr} : Level slot n ts e → NoEnd ts
  | .primary h => h.noEnd
  | .plus ht h => .punctuator ht h.noEnd
  | .minus ht h => .punctuator ht h.noEnd
  | .tighter h => h.noEnd
  | .operator ha ht hb _ => ha.noEnd.append (.punctuator ht hb.noEnd)

theorem Primary.noEnd {ts : List Token} {e : Expr} : Primary slot ts e → NoEnd ts
  | .parens hl h hr => .punctuator hl (h.noEnd.append (.punctuator hr .nil))
  | .num hk => .cons (fun h => by rw [hk] at h; cases h) .nil
  | .var hk _ => .ident hk .nil
  | .call hk _ hl h hr => .ident hk (.punctuator hl (h.noEnd.append (.punctuator hr .nil)))
  | .callBare hk _ hl hr => .ident hk (.punctuator hl (.punctuator hr .nil))

theorem Arguments.noEnd {ts : List Token} {es : List Expr} : Arguments slot ts es → NoEnd ts
  | .last h => h.noEnd
  | .more h hc hs => h.noEnd.append (.punctuator hc hs.noEnd)

end

theorem Clause.noEnd {ts : List Token} {e : Option Expr} : Clause slot ts e → NoEnd ts
  | .absent => .nil
  | .present h => h.noEnd

mutual

theorem Statement.noEnd {ts : List Token} {s : Stmt} : Statement slot ts s → NoEnd ts
  | .ret hk h hz => .keyword hk (h.noEnd.append (.punctuator hz .nil))
  | .cond hk hl h hr hyes =>
    .keyword hk (.punctuator hl (h.noEnd.append (.punctuator hr hyes.noEnd)))
  | .condElse hk hl h hr hyes ho hno =>
    .keyword hk (.punctuator hl (h.noEnd.append (.punctuator hr
      (hyes.noEnd.append (.keyword ho hno.noEnd)))))
  | .loop hk hl hstart hy htest hz hnext hr hbody =>
    .keyword hk (.punctuator hl (hstart.noEnd.append (.punctuator hy (htest.noEnd.append
      (.punctuator hz (hnext.noEnd.append (.punctuator hr hbody.noEnd)))))))
  | .block hl h hr => .punctuator hl (h.noEnd.append (.punctuator hr .nil))
  | .expr h hz => h.noEnd.append (.punctuator hz .nil)

theorem Statements.noEnd {ts : List Token} {body : List Stmt} :
    Statements slot ts body → NoEnd ts
  | .nil => .nil
  | .cons h hs => h.noEnd.append hs.noEnd

end

theorem Parameters.noEnd {ts : List Token} {names : List String} (h : Parameters ts names) :
    NoEnd ts := by
  induction h with
  | last hk _ => exact .ident hk .nil
  | more hk _ hc _ ih => exact .ident hk (.punctuator hc ih)

theorem OptParameters.noEnd {ts : List Token} {names : List String} :
    OptParameters ts names → NoEnd ts
  | .absent => .nil
  | .present h => h.noEnd

theorem Definition.noEnd {ts : List Token} {f : Function} : Definition ts f → NoEnd ts
  | .intro hk _ hl hps hr ho hbody hc _ =>
    .ident hk (.punctuator hl (hps.noEnd.append (.punctuator hr (.punctuator ho
      (hbody.noEnd.append (.punctuator hc .nil))))))

theorem Program.noEnd {ts : List Token} {p : StackCompiler.Program} (h : Program ts p) :
    NoEnd ts := by
  induction h with
  | nil => exact .nil
  | cons hf _ ih => exact hf.noEnd.append ih

/-! ## 2. First tokens -/

/-- An expression may start with this token. -/
def StartsExpr (t : Token) : Prop :=
  t.isPunctuator "(" ∨ t.isPunctuator "+" ∨ t.isPunctuator "-" ∨ t.kind = .ident ∨
    ∃ value, t.kind = .num (some value)

namespace StartsExpr

theorem not_isPunctuator {t : Token} (h : StartsExpr t) {s : String}
    (hs : s ∉ ["(", "+", "-"]) : ¬ t.isPunctuator s := by
  intro hp
  have hk := (Token.isPunctuator_iff.mp hp).1
  rcases h with h | h | h | h | ⟨_, h⟩
  · exact hs (Token.spelling_eq h hp ▸ by simp)
  · exact hs (Token.spelling_eq h hp ▸ by simp)
  · exact hs (Token.spelling_eq h hp ▸ by simp)
  · rw [hk] at h
    cases h
  · rw [hk] at h
    cases h

theorem not_isKeyword {t : Token} (h : StartsExpr t) {s : String} : ¬ t.isKeyword s := by
  intro hp
  have hk := (Token.isKeyword_iff.mp hp).1
  have hpunct {s : String} : ¬ t.isPunctuator s := fun h => by
    have := (Token.isPunctuator_iff.mp h).1
    rw [hk] at this
    cases this
  rcases h with h | h | h | h | ⟨_, h⟩
  · exact hpunct h
  · exact hpunct h
  · exact hpunct h
  · rw [hk] at h
    cases h
  · rw [hk] at h
    cases h

end StartsExpr

/-- A primary expression does not start with a sign. -/
theorem Primary.starts {ts : List Token} {e : Expr} (h : Primary slot ts e) :
    ∃ t us, ts = t :: us ∧
      (t.isPunctuator "(" ∨ t.kind = .ident ∨ ∃ value, t.kind = .num (some value)) := by
  cases h with
  | parens hl _ _ => exact ⟨_, _, rfl, .inl hl⟩
  | num hk => exact ⟨_, _, rfl, .inr (.inr ⟨_, hk⟩)⟩
  | var hk _ => exact ⟨_, _, rfl, .inr (.inl hk)⟩
  | call hk _ _ _ _ => exact ⟨_, _, rfl, .inr (.inl hk)⟩
  | callBare hk _ _ _ => exact ⟨_, _, rfl, .inr (.inl hk)⟩

theorem Level.starts {n : Nat} {ts : List Token} {e : Expr} :
    Level slot n ts e → ∃ t us, ts = t :: us ∧ StartsExpr t
  | .primary h => by
    obtain ⟨t, us, hts, hl | hk | hv⟩ := h.starts
    · exact ⟨t, us, hts, .inl hl⟩
    · exact ⟨t, us, hts, .inr (.inr (.inr (.inl hk)))⟩
    · exact ⟨t, us, hts, .inr (.inr (.inr (.inr hv)))⟩
  | .plus ht _ => ⟨_, _, rfl, .inr (.inl ht)⟩
  | .minus ht _ => ⟨_, _, rfl, .inr (.inr (.inl ht))⟩
  | .tighter h => h.starts
  | .operator ha _ _ _ => by
    obtain ⟨t, us, rfl, ht⟩ := ha.starts
    exact ⟨t, _, rfl, ht⟩

theorem Assignment.starts {ts : List Token} {e : Expr} (h : Assignment slot ts e) :
    ∃ t us, ts = t :: us ∧ StartsExpr t := by
  cases h with
  | plain h => exact h.starts
  | store ha _ _ =>
    obtain ⟨_, _, heq, ht⟩ := ha.starts
    cases heq
    exact ⟨_, _, rfl, ht⟩

theorem Arguments.starts {ts : List Token} {es : List Expr} (h : Arguments slot ts es) :
    ∃ t us, ts = t :: us ∧ StartsExpr t := by
  cases h with
  | last h => exact h.starts
  | more h _ _ =>
    obtain ⟨t, us, rfl, ht⟩ := h.starts
    exact ⟨t, _, rfl, ht⟩

/-- A statement may start with this token. -/
def StartsStmt (t : Token) : Prop :=
  t.isKeyword "return" ∨ t.isKeyword "if" ∨ t.isKeyword "for" ∨ t.isPunctuator "\x7b" ∨
    StartsExpr t

theorem Statement.starts {ts : List Token} {s : Stmt} (h : Statement slot ts s) :
    ∃ t us, ts = t :: us ∧ StartsStmt t := by
  cases h with
  | ret hk _ _ => exact ⟨_, _, rfl, .inl hk⟩
  | cond hk _ _ _ _ => exact ⟨_, _, rfl, .inr (.inl hk)⟩
  | condElse hk _ _ _ _ _ _ => exact ⟨_, _, rfl, .inr (.inl hk)⟩
  | loop hk _ _ _ _ _ _ _ _ => exact ⟨_, _, rfl, .inr (.inr (.inl hk))⟩
  | block hl _ _ => exact ⟨_, _, rfl, .inr (.inr (.inr (.inl hl)))⟩
  | expr h _ =>
    obtain ⟨t, us, rfl, ht⟩ := h.starts
    exact ⟨t, _, rfl, .inr (.inr (.inr (.inr ht)))⟩

/-! ## 3. Every `else` with the nearest `if` -/

theorem Statement.of_eq {ts us : List Token} {s : Stmt} (h : Statement slot ts s) (heq : ts = us) :
    Statement slot us s :=
  heq ▸ h

/-- An `else` behind a statement that ends in an open `if` can be moved into that `if`. -/
theorem Statement.attach {o : Token} {ts vs : List Token} {s no : Stmt}
    (ho : o.isKeyword "else") (hno : Statement slot vs no) (hnearest : no.ElsesNearest) :
    Statement slot ts s → s.ElsesNearest → s.EndsOpen →
      ∃ s', Statement slot (ts ++ o :: vs) s' ∧ s'.ElsesNearest
  | .ret _ _ _, _, hopen => hopen.elim
  | .expr _ _, _, hopen => hopen.elim
  | .block _ _ _, _, hopen => hopen.elim
  | @Statement.cond _ _ _ _ _ _ _ yes hk hl htest hr hyes, hs, _ => by
    by_cases hopen : yes.EndsOpen
    · -- The open `if` that the `else` goes to stands further inside.
      obtain ⟨yes', hyes', hs'⟩ := Statement.attach ho hno hnearest hyes hs hopen
      exact ⟨_, (Statement.cond hk hl htest hr hyes').of_eq (by simp), hs'⟩
    · exact ⟨_, (Statement.condElse hk hl htest hr hyes ho hno).of_eq (by simp), hopen, hs,
        hnearest⟩
  | .condElse hk hl htest hr hyes ho' hno', ⟨hnot, hs, hs'⟩, hopen => by
    obtain ⟨no', hno', hs''⟩ := Statement.attach ho hno hnearest hno' hs' hopen
    exact ⟨_, (Statement.condElse hk hl htest hr hyes ho' hno').of_eq (by simp), hnot, hs, hs''⟩
  | .loop hk hl hstart hy htest hz hnext hr hbody, hs, hopen => by
    obtain ⟨body', hbody', hs'⟩ := Statement.attach ho hno hnearest hbody hs hopen
    exact ⟨_, (Statement.loop hk hl hstart hy htest hz hnext hr hbody').of_eq (by simp), hs'⟩

mutual

theorem Statement.exists_elsesNearest {ts : List Token} {s : Stmt} :
    Statement slot ts s → ∃ s', Statement slot ts s' ∧ s'.ElsesNearest
  | .ret hk h hz => ⟨_, .ret hk h hz, trivial⟩
  | .expr h hz => ⟨_, .expr h hz, trivial⟩
  | .cond hk hl htest hr hyes => by
    obtain ⟨yes', hyes', hs⟩ := hyes.exists_elsesNearest
    exact ⟨_, .cond hk hl htest hr hyes', hs⟩
  | .condElse hk hl htest hr hyes ho hno => by
    obtain ⟨yes', hyes', hs⟩ := hyes.exists_elsesNearest
    obtain ⟨no', hno', hs'⟩ := hno.exists_elsesNearest
    by_cases hopen : yes'.EndsOpen
    · obtain ⟨s', hs', hn⟩ := Statement.attach ho hno' hs' hyes' hs hopen
      exact ⟨_, .cond hk hl htest hr hs', hn⟩
    · exact ⟨_, .condElse hk hl htest hr hyes' ho hno', hopen, hs, hs'⟩
  | .loop hk hl hstart hy htest hz hnext hr hbody => by
    obtain ⟨body', hbody', hs⟩ := hbody.exists_elsesNearest
    exact ⟨_, .loop hk hl hstart hy htest hz hnext hr hbody', hs⟩
  | .block hl h hr => by
    obtain ⟨body', h', hs⟩ := h.exists_elsesNearest
    exact ⟨_, .block hl h' hr, hs⟩

theorem Statements.exists_elsesNearest {ts : List Token} {body : List Stmt} :
    Statements slot ts body → ∃ body', Statements slot ts body' ∧ ElsesNearestIn body'
  | .nil => ⟨_, .nil, trivial⟩
  | .cons h hs => by
    obtain ⟨s', h', hn⟩ := h.exists_elsesNearest
    obtain ⟨body', hs', hns⟩ := hs.exists_elsesNearest
    exact ⟨_, .cons h' hs', hn, hns⟩

end

/-- The names of parameters that were given slots. -/
theorem map_name_slots (frame : Frame) (names : List String) :
    (names.map fun param => (⟨param, frame.offset param⟩ : Slot)).map Slot.name = names := by
  rw [List.map_map]
  exact List.map_id' names

/-- Moving every `else` to the nearest open `if` changes no parameter list. -/
theorem Definition.exists_elsesNearest {ts : List Token} {f : Function} (h : Definition ts f) :
    ∃ f', Definition ts f' ∧ f'.ElsesNearest ∧ f'.params = f.params := by
  cases h with
  | intro hk ht hl hps hr ho hbody hc hframe =>
    obtain ⟨body', hbody', hs⟩ := hbody.exists_elsesNearest
    exact ⟨_, .intro hk ht hl hps hr ho hbody' hc hframe, hs, rfl⟩

theorem Program.exists_elsesNearest {ts : List Token} {p : StackCompiler.Program}
    (h : Program ts p) (hp : ∀ f ∈ p, f.ParamsDistinct) :
    ∃ p', Program ts p' ∧ (∀ f ∈ p', f.ParamsDistinct) ∧ ∀ f ∈ p', f.ElsesNearest := by
  induction h with
  | nil => exact ⟨[], .nil, hp, List.forall_mem_nil _⟩
  | cons hf _ ih =>
    obtain ⟨hdistinct, hp⟩ := List.forall_mem_cons.mp hp
    obtain ⟨f', hf', hn, hparams⟩ := hf.exists_elsesNearest
    obtain ⟨p', hp', hd, hns⟩ := ih hp
    refine ⟨f' :: p', .cons hf' hp', List.forall_mem_cons.mpr ⟨?_, hd⟩,
      List.forall_mem_cons.mpr ⟨hn, hns⟩⟩
    unfold Function.ParamsDistinct
    rw [hparams]
    exact hdistinct

end Grammar

end StackCompiler
