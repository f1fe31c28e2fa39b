import StackCompiler.Proofs.Grammar.Soundness

/-!
# What is derivable is read

The readers yield a tree for every phrase of the grammar, and it is the tree that the phrase
denotes (`Assignment.read`, `Statement.read`). What may come behind the phrase decides whether the
reader stops there: no operator that could still belong to the phrase (`Stops`), and no `else`
behind a statement that ends in an open `if`.
-/

namespace StackCompiler

namespace Grammar

open Surface (readExpr readLevel readChain readPrimary readArgs readMoreArgs readClause readStmt
  readBlock readMoreParams readParams readFunction readFunctions LeadsKeyword leadsKeyword_cons)

/-! ## 1. What may come behind an expression -/

/-- No opening parenthesis and no operator of at most the level `n` comes first. -/
def Stops (n : Nat) (ts : List Token) : Prop :=
  ¬ Leads "(" ts ∧ ∀ op : Surface.Op, op.level ≤ n → ¬ Leads op.spelling ts

theorem Stops.mono {n m : Nat} {ts : List Token} (h : Stops n ts) (hle : m ≤ n) : Stops m ts :=
  ⟨h.1, fun op hop => h.2 op (Nat.le_trans hop hle)⟩

/-- An expression stops at a punctuator that is no operator. -/
theorem stops_cons {t : Token} {s : String} {ts : List Token} {n : Nat} (ht : t.isPunctuator s)
    (hs : s ∉ "(" :: Surface.Op.all.map Surface.Op.spelling) : Stops n (t :: ts) := by
  constructor
  · intro h
    exact hs (Token.spelling_eq (leads_cons.mp h) ht ▸ List.mem_cons_self)
  · intro op _ h
    refine hs (Token.spelling_eq (leads_cons.mp h) ht ▸ List.mem_cons_of_mem _ ?_)
    cases op <;> decide

/-- An expression stops at a looser operator. -/
theorem stops_operator {t : Token} {op : Surface.Op} {ts : List Token} {n : Nat}
    (ht : t.isPunctuator op.spelling) (hlevel : op.level = n + 1) : Stops n (t :: ts) := by
  constructor
  · intro h
    have := Token.spelling_eq ht (leads_cons.mp h)
    cases op <;> exact absurd this (by decide)
  · intro op' hle h
    cases Surface.Op.spelling_injective (Token.spelling_eq ht (leads_cons.mp h))
    omega

theorem not_leads_cons {t : Token} {s s' : String} {ts : List Token} (ht : t.isPunctuator s)
    (hs : s ≠ s') : ¬ Leads s' (t :: ts) :=
  fun h => hs (Token.spelling_eq ht (leads_cons.mp h))

/-- No expression goes on behind what comes before these tokens. -/
structure StopsExpr (ts : List Token) : Prop where
  stops : Stops 4 ts
  not_store : ¬ Leads "=" ts

/-- The punctuators that come behind expressions. -/
def exprEnds : List String :=
  [")", ";", ","]

theorem stopsExpr_cons {t : Token} {s : String} {ts : List Token} (ht : t.isPunctuator s)
    (hs : s ∈ exprEnds) : StopsExpr (t :: ts) := by
  have hall : ∀ s ∈ exprEnds, s ∉ "(" :: Surface.Op.all.map Surface.Op.spelling ∧ s ≠ "=" := by
    decide
  exact ⟨stops_cons ht (hall s hs).1, not_leads_cons ht (hall s hs).2⟩

theorem StartsExpr.not_leads {t : Token} {s : String} {ts : List Token} (h : StartsExpr t)
    (hs : s ∉ ["(", "+", "-"]) : ¬ Leads s (t :: ts) :=
  fun h' => h.not_isPunctuator hs (leads_cons.mp h')

/-- Every operator of the grammar is one that the reader looks for. -/
theorem Infix.exists_op {n : Nat} {s : String} {a b e : Expr} (h : Infix n s a b e) :
    ∃ op : Surface.Op, op.level = n ∧ op.spelling = s ∧ op.apply a b = e := by
  cases h
  · exact ⟨.mul, rfl, rfl, rfl⟩
  · exact ⟨.div, rfl, rfl, rfl⟩
  · exact ⟨.add, rfl, rfl, rfl⟩
  · exact ⟨.sub, rfl, rfl, rfl⟩
  · exact ⟨.lt, rfl, rfl, rfl⟩
  · exact ⟨.le, rfl, rfl, rfl⟩
  · exact ⟨.gt, rfl, rfl, rfl⟩
  · exact ⟨.ge, rfl, rfl, rfl⟩
  · exact ⟨.eq, rfl, rfl, rfl⟩
  · exact ⟨.ne, rfl, rfl, rfl⟩

/-! ## 2. Expressions -/

/-- The tokens `ts` are read as the expression `x` of the level `n`, or, where the level has
operators, as the beginning `x` of a chain of them. -/
def Begins (n : Nat) (ts : List Token) (x : Surface.Expr) : Prop :=
  match n with
  | 0 => ∀ rest, Stops 0 rest → (readLevel 0 (ts ++ rest)).Yields x rest
  | n + 1 => ∀ rest e rest', Stops n rest →
      (∀ bound (h : rest.length < bound), (readChain n x rest h).Yields e rest') →
      (readLevel (n + 1) (ts ++ rest)).Yields e rest'

/-- Where nothing continues the chain, its beginning is all of it. -/
theorem Begins.yields {n : Nat} {ts rest : List Token} {x : Surface.Expr} (h : Begins n ts x)
    (hrest : Stops n rest) : (readLevel n (ts ++ rest)).Yields x rest := by
  cases n with
  | zero => exact h rest hrest
  | succ n =>
    refine h rest x rest (hrest.mono (Nat.le_succ n)) fun bound hlt => ?_
    exact Surface.readChain_yields.mpr
      (.inl ⟨fun op hlevel => hrest.2 op (Nat.le_of_eq hlevel), rfl, rfl⟩)

/-- A token that is an identifier or a number is no punctuator. -/
theorem not_leads_of_kind {t : Token} {s : String} {ts : List Token} (hk : t.kind ≠ .punctuator) :
    ¬ Leads s (t :: ts) :=
  fun h => hk (Token.isPunctuator_iff.mp (leads_cons.mp h)).1

theorem not_leads_ident {t : Token} {s : String} {ts : List Token} (hk : t.kind = .ident) :
    ¬ Leads s (t :: ts) :=
  not_leads_of_kind fun h => by rw [hk] at h; cases h

variable {slot : String → Nat} {frame : Frame}

theorem Arguments.not_leads {ts us : List Token} {es : List Expr} {s : String}
    (h : Arguments slot ts es) (hs : s ∉ ["(", "+", "-"]) : ¬ Leads s (ts ++ us) := by
  obtain ⟨t, ts, rfl, ht⟩ := h.starts
  exact ht.not_leads hs

theorem Assignment.not_leads {ts us : List Token} {e : Expr} {s : String}
    (h : Assignment slot ts e) (hs : s ∉ ["(", "+", "-"]) : ¬ Leads s (ts ++ us) := by
  obtain ⟨t, ts, rfl, ht⟩ := h.starts
  exact ht.not_leads hs

theorem Primary.not_sign {ts : List Token} {e : Expr} (h : Primary slot ts e)
    (rest : List Token) : ¬ Leads "+" (ts ++ rest) ∧ ¬ Leads "-" (ts ++ rest) := by
  obtain ⟨t, us, rfl, hl | hk | ⟨_, hk⟩⟩ := h.starts
  · exact ⟨not_leads_cons hl (by decide), not_leads_cons hl (by decide)⟩
  · exact ⟨not_leads_of_kind (by simp [hk]), not_leads_of_kind (by simp [hk])⟩
  · exact ⟨not_leads_of_kind (by simp [hk]), not_leads_of_kind (by simp [hk])⟩

mutual

theorem Assignment.read {ts : List Token} {e : Expr} : Assignment frame.offset ts e →
    ∃ x, x.resolve frame = e ∧
      ∀ rest, StopsExpr rest → (readExpr (ts ++ rest)).Yields x rest
  | .plain h => by
    obtain ⟨x, rfl, hx⟩ := h.begins
    refine ⟨x, rfl, fun rest hrest => ?_⟩
    exact Surface.readExpr_yields.mpr
      ⟨x, rest, hx.yields hrest.stops, .inl ⟨hrest.not_store, rfl, rfl⟩⟩
  | @Assignment.store _ first eq ts us _ _ ha ht hb => by
    obtain ⟨x, rfl, hx⟩ := ha.begins
    obtain ⟨y, rfl, hy⟩ := hb.begins
    refine ⟨.assign x y first.loc, rfl, fun rest hrest => ?_⟩
    rw [List.append_assoc]
    have hstop : Stops 4 (eq :: us ++ rest) := stops_cons ht (by decide)
    exact Surface.readExpr_yields.mpr ⟨x, _, hx.yields hstop,
      .inr ⟨eq, us ++ rest, rfl, ht, y, hy.yields hrest.stops, rfl⟩⟩

theorem Level.begins {n : Nat} {ts : List Token} {e : Expr} : Level frame.offset n ts e →
      ∃ x, x.resolve frame = e ∧ Begins n ts x
  | .primary h => by
    obtain ⟨x, rfl, hx⟩ := h.read
    refine ⟨x, rfl, fun rest hrest => ?_⟩
    have hread := hx rest hrest.1
    obtain ⟨hplus, hminus⟩ := h.not_sign rest
    exact Surface.readLevel_zero_yields.mpr (.inl ⟨hplus, .inl ⟨hminus, hread⟩⟩)
  | .plus ht h => by
    obtain ⟨x, rfl, hx⟩ := h.begins
    refine ⟨x, rfl, fun rest hrest => ?_⟩
    exact Surface.readLevel_zero_yields.mpr (.inr ⟨_, _, rfl, ht, x, hx.yields hrest, rfl⟩)
  | .minus ht h => by
    obtain ⟨x, rfl, hx⟩ := h.begins
    refine ⟨.neg x, rfl, fun rest hrest => ?_⟩
    exact Surface.readLevel_zero_yields.mpr (.inl ⟨not_leads_cons ht (by decide),
      .inr ⟨_, _, rfl, ht, x, hx.yields hrest, rfl⟩⟩)
  | .tighter h => by
    obtain ⟨x, rfl, hx⟩ := h.begins
    refine ⟨x, rfl, fun rest e rest' hrest hchain => ?_⟩
    have hfirst := hx.yields hrest
    exact Surface.readLevel_succ_yields.mpr ⟨x, rest, hfirst, hfirst.shorter, hchain _ _⟩
  | @Level.operator _ n s t ts us _ _ _ ha ht hb hop => by
    obtain ⟨x, rfl, hx⟩ := ha.begins
    obtain ⟨y, rfl, hy⟩ := hb.begins
    obtain ⟨op, hlevel, rfl, rfl⟩ := hop.exists_op
    refine ⟨.binary op x y, rfl, fun rest e rest' hrest hchain => ?_⟩
    rw [List.append_assoc, List.cons_append]
    -- The reader is at the operator, with the chain up to it in hand.
    refine hx _ e rest' (stops_operator ht hlevel) fun bound hlt => ?_
    have hlt : rest.length < bound := by
      rw [List.length_cons, List.length_append] at hlt
      omega
    exact Surface.readChain_yields.mpr (.inr ⟨op, t, us ++ rest, rfl, ht, hlevel, y, rest,
      hy.yields hrest, hlt, hchain bound hlt⟩)

theorem Primary.read {ts : List Token} {e : Expr} : Primary frame.offset ts e →
    ∃ x, x.resolve frame = e ∧
      ∀ rest, ¬ Leads "(" rest → (readPrimary (ts ++ rest)).Yields x rest
  | @Primary.parens _ l r ts _ hl h hr => by
    obtain ⟨x, rfl, hx⟩ := h.read
    refine ⟨x, rfl, fun rest _ => ?_⟩
    have hinner := hx (r :: rest) (stopsExpr_cons hr (by decide))
    rw [List.cons_append, List.append_assoc]
    exact Surface.readPrimary_yields.mpr (.inr ⟨l, _, rfl, hl, x, _, hinner, r, rfl, hr, rfl⟩)
  | @Primary.num _ t _ hk => by
    refine ⟨.num _, rfl, fun rest _ => ?_⟩
    have hkind : t.kind ≠ .punctuator := fun h => by rw [hk] at h; cases h
    exact Surface.readPrimary_yields.mpr
      (.inl ⟨not_leads_of_kind hkind, _, _, rfl, .inr ⟨_, hk, rfl, rfl⟩⟩)
  | .var hk ht => by
    refine ⟨.var _ _, rfl, fun rest hrest => ?_⟩
    exact Surface.readPrimary_yields.mpr
      (.inl ⟨not_leads_ident hk, _, _, rfl, .inl ⟨_, hk, ht, .inl ⟨hrest, rfl, rfl⟩⟩⟩)
  | @Primary.call _ _ l r _ ts _ hk ht hl h hr => by
    obtain ⟨args, rfl, hargs⟩ := h.read
    refine ⟨.call _ args _, rfl, fun rest _ => ?_⟩
    have hmore := hargs r _ rest rfl hr [] _ (Nat.le_refl _)
    have hread := Surface.readArgs_yields.mpr (.inl ⟨h.not_leads (by decide), hmore⟩)
    rw [List.cons_append, List.cons_append, List.append_assoc]
    exact Surface.readPrimary_yields.mpr (.inl ⟨not_leads_ident hk, _, _, rfl,
      .inl ⟨_, hk, ht, .inr ⟨l, _, rfl, hl, args, hread, rfl⟩⟩⟩)
  | @Primary.callBare _ _ l r _ hk ht hl hr => by
    refine ⟨.call _ [] _, rfl, fun rest _ => ?_⟩
    have hread : (readArgs (r :: rest)).Yields [] rest :=
      Surface.readArgs_yields.mpr (.inr ⟨r, rest, rfl, hr, rfl, rfl⟩)
    exact Surface.readPrimary_yields.mpr (.inl ⟨not_leads_ident hk, _, _, rfl,
      .inl ⟨_, hk, ht, .inr ⟨l, _, rfl, hl, [], hread, rfl⟩⟩⟩)

theorem Arguments.read {ts : List Token} {es : List Expr} : Arguments frame.offset ts es →
    ∃ args, Surface.resolveArgs frame args = es ∧
      ∀ (r : Token) (input rest : List Token), input = ts ++ r :: rest → r.isPunctuator ")" →
        ∀ done bound (h : input.length ≤ bound),
          (readMoreArgs done input h).Yields (done.reverse ++ args) rest
  | .last h => by
    obtain ⟨x, rfl, hx⟩ := h.read
    refine ⟨[x], rfl, fun r input rest hinput hr done bound hle => ?_⟩
    subst hinput
    have hread := hx (r :: rest) (stopsExpr_cons hr (by decide))
    exact Surface.readMoreArgs_yields.mpr ⟨x, _, hread,
      .inl ⟨not_leads_cons hr (by decide), r, rfl, hr, List.reverse_cons⟩⟩
  | @Arguments.more _ c ts us _ _ h hc hs => by
    obtain ⟨x, rfl, hx⟩ := h.read
    obtain ⟨args, rfl, hargs⟩ := hs.read
    refine ⟨x :: args, rfl, fun r input rest hinput hr done bound hle => ?_⟩
    rw [List.append_assoc, List.cons_append] at hinput
    subst hinput
    have hread := hx (c :: (us ++ r :: rest)) (stopsExpr_cons hc (by decide))
    have hlt : (us ++ r :: rest).length ≤ bound := by
      simp only [List.length_append, List.length_cons] at hle ⊢
      omega
    have hmore := hargs r _ rest rfl hr (x :: done) bound hlt
    rw [List.reverse_cons, List.append_assoc] at hmore
    exact Surface.readMoreArgs_yields.mpr ⟨x, _, hread, .inr ⟨c, _, rfl, hc, hlt, hmore⟩⟩

end

/-! ## 3. Statements -/

theorem not_leadsKeyword_cons {t : Token} {s s' : String} {ts : List Token} (ht : t.isKeyword s)
    (hs : s ≠ s') : ¬ LeadsKeyword s' (t :: ts) := by
  intro h
  have hs' := (Token.isKeyword_iff.mp (leadsKeyword_cons.mp h)).2
  exact hs (Option.some.inj ((Token.isKeyword_iff.mp ht).2.symm.trans hs'))

theorem not_leadsKeyword_punctuator {t : Token} {s s' : String} {ts : List Token}
    (ht : t.isPunctuator s) : ¬ LeadsKeyword s' (t :: ts) := by
  intro h
  have hk := (Token.isKeyword_iff.mp (leadsKeyword_cons.mp h)).1
  rw [(Token.isPunctuator_iff.mp ht).1] at hk
  cases hk

theorem not_leads_keyword {t : Token} {s s' : String} {ts : List Token}
    (ht : t.isKeyword s) : ¬ Leads s' (t :: ts) :=
  not_leads_of_kind fun hk => by rw [(Token.isKeyword_iff.mp ht).1] at hk; cases hk

theorem Assignment.not_leadsKeyword {ts us : List Token} {e : Expr} {s : String}
    (h : Assignment slot ts e) : ¬ LeadsKeyword s (ts ++ us) := by
  obtain ⟨t, ts, rfl, ht⟩ := h.starts
  exact fun h => ht.not_isKeyword (leadsKeyword_cons.mp h)

/-- No statement starts with an `else`. -/
theorem Statement.not_leadsKeyword_else {ts us : List Token} {s : Stmt}
    (h : Statement slot ts s) : ¬ LeadsKeyword "else" (ts ++ us) := by
  obtain ⟨t, ts, rfl, ht | ht | ht | ht | ht⟩ := h.starts
  · exact not_leadsKeyword_cons ht (by decide)
  · exact not_leadsKeyword_cons ht (by decide)
  · exact not_leadsKeyword_cons ht (by decide)
  · exact not_leadsKeyword_punctuator ht
  · exact fun h => ht.not_isKeyword (leadsKeyword_cons.mp h)

/-- No statement starts with a closing brace. -/
theorem Statement.not_leads_brace {ts us : List Token} {s : Stmt}
    (h : Statement slot ts s) : ¬ Leads "\x7d" (ts ++ us) := by
  obtain ⟨t, ts, rfl, ht | ht | ht | ht | ht⟩ := h.starts
  · exact not_leads_keyword ht
  · exact not_leads_keyword ht
  · exact not_leads_keyword ht
  · exact not_leads_cons ht (by decide)
  · exact ht.not_leads (by decide)

theorem Statement.atEnd_eq_false {ts us : List Token} {s : Stmt} (h : Statement slot ts s) :
    Surface.atEnd (ts ++ us) = false := by
  have hends := h.noEnd
  obtain ⟨t, ts, rfl, -⟩ := h.starts
  exact beq_false_of_ne (hends t List.mem_cons_self)

/-- Behind the statements of a block, no `else` comes. -/
theorem Statements.not_leadsKeyword_else {r : Token} {ts us : List Token} {body : List Stmt}
    (h : Statements slot ts body) (hr : r.isPunctuator "\x7d") :
    ¬ LeadsKeyword "else" (ts ++ r :: us) := by
  cases h with
  | nil => exact not_leadsKeyword_punctuator hr
  | cons h _ =>
    rw [List.append_assoc]
    exact h.not_leadsKeyword_else

theorem Clause.read {ts : List Token} {clause : Option Expr}
    (h : Clause frame.offset ts clause) :
    ∃ x, x.map (Surface.Expr.resolve frame) = clause ∧
      ∀ (ending : String) (z : Token) rest, ending ∈ exprEnds →
        z.isPunctuator ending → (readClause ending (ts ++ z :: rest)).Yields x rest := by
  cases h with
  | absent =>
    refine ⟨none, rfl, fun ending z rest _ hz => ?_⟩
    exact Surface.readClause_yields.mpr (.inr ⟨z, rest, rfl, hz, rfl, rfl⟩)
  | present h =>
    obtain ⟨x, rfl, hx⟩ := h.read
    refine ⟨some x, rfl, fun ending z rest hending hz => ?_⟩
    have hall : ∀ s ∈ exprEnds, s ∉ ["(", "+", "-"] := by decide
    have hread := hx (z :: rest) (stopsExpr_cons hz hending)
    exact Surface.readClause_yields.mpr
      (.inl ⟨h.not_leads (hall ending hending), x, _, hread, z, rfl, hz, rfl⟩)

mutual

theorem Statement.read {ts : List Token} {s : Stmt} :
    Statement frame.offset ts s → s.ElsesNearest →
      ∃ x, x.resolve frame = s ∧ ∀ rest, (s.EndsOpen → ¬ LeadsKeyword "else" rest) →
        (readStmt (ts ++ rest)).Yields x rest
  | @Statement.ret _ k z ts _ hk h hz, _ => by
    obtain ⟨x, rfl, hx⟩ := h.read
    refine ⟨.ret x, rfl, fun rest _ => ?_⟩
    have hread := hx (z :: rest) (stopsExpr_cons hz (by decide))
    rw [List.cons_append, List.append_assoc]
    exact Surface.readStmt_yields.mpr (.inr ⟨k, _, rfl, hk, x, _, hread, z, rfl, hz, rfl⟩)
  | @Statement.expr _ z ts _ h hz, _ => by
    obtain ⟨x, rfl, hx⟩ := h.read
    refine ⟨.expr x, rfl, fun rest _ => ?_⟩
    have hread := hx (z :: rest) (stopsExpr_cons hz (by decide))
    rw [List.append_assoc]
    exact Surface.readStmt_yields.mpr (.inl ⟨h.not_leadsKeyword, .inl ⟨h.not_leadsKeyword,
      .inl ⟨h.not_leadsKeyword, .inl ⟨h.not_leads (by decide), x, _, hread, z, rfl, hz, rfl⟩⟩⟩⟩)
  | @Statement.block _ l r ts _ hl h hr, hnearest => by
    obtain ⟨body, rfl, hbody⟩ := h.read hnearest
    refine ⟨.block body, rfl, fun rest _ => ?_⟩
    have hread := hbody r _ rest rfl hr [] _ (Nat.le_refl _)
    rw [List.cons_append, List.append_assoc]
    exact Surface.readStmt_yields.mpr (.inl ⟨not_leadsKeyword_punctuator hl,
      .inl ⟨not_leadsKeyword_punctuator hl, .inl ⟨not_leadsKeyword_punctuator hl,
        .inr ⟨l, _, rfl, hl, body, hread, rfl⟩⟩⟩⟩)
  | @Statement.cond _ k l r ts us _ _ hk hl htest hr hyes, hnearest => by
    obtain ⟨x, rfl, hx⟩ := htest.read
    obtain ⟨y, rfl, hy⟩ := hyes.read hnearest
    refine ⟨.cond x y none, rfl, fun rest helse => ?_⟩
    have hread := hx (r :: (us ++ rest)) (stopsExpr_cons hr (by decide))
    have hthen := hy rest fun _ => helse trivial
    rw [List.cons_append, List.cons_append, List.append_assoc]
    exact Surface.readStmt_yields.mpr (.inl ⟨not_leadsKeyword_cons hk (by decide),
      .inr ⟨k, _, rfl, hk, l, _, rfl, hl, x, _, hread, r, _, rfl, hr, y, _, hthen,
        .inl ⟨helse trivial, rfl, rfl⟩⟩⟩)
  | @Statement.condElse _ k l r o ts us vs _ _ _ hk hl htest hr hyes ho hno,
      ⟨hclosed, hnearest, hnearest'⟩ => by
    obtain ⟨x, rfl, hx⟩ := htest.read
    obtain ⟨y, rfl, hy⟩ := hyes.read hnearest
    obtain ⟨z, rfl, hz⟩ := hno.read hnearest'
    refine ⟨.cond x y (some z), rfl, fun rest helse => ?_⟩
    have hread := hx (r :: (us ++ o :: (vs ++ rest))) (stopsExpr_cons hr (by decide))
    -- the first branch is closed, so an `else` may come behind it
    have hthen := hy (o :: (vs ++ rest)) fun h => absurd h hclosed
    have helse := hz rest helse
    rw [List.cons_append, List.cons_append, List.append_assoc, List.cons_append,
      List.append_assoc]
    exact Surface.readStmt_yields.mpr (.inl ⟨not_leadsKeyword_cons hk (by decide),
      .inr ⟨k, _, rfl, hk, l, _, rfl, hl, x, _, hread, r, _, rfl, hr, y, _, hthen,
        .inr ⟨o, _, rfl, ho, z, helse, rfl⟩⟩⟩)
  | @Statement.loop _ k l y z r ts us vs ws _ _ _ _ hk hl hstart hy htest hz hnext hr hbody,
      hnearest => by
    obtain ⟨start, rfl, hstartRead⟩ := hstart.read
    obtain ⟨test, rfl, htestRead⟩ := htest.read
    obtain ⟨next, rfl, hnextRead⟩ := hnext.read
    obtain ⟨body, rfl, hbodyRead⟩ := hbody.read hnearest
    refine ⟨.loop start test next body, rfl, fun rest helse => ?_⟩
    have hstart := hstartRead _ y (us ++ z :: (vs ++ r :: (ws ++ rest))) (by decide) hy
    have htest := htestRead _ z (vs ++ r :: (ws ++ rest)) (by decide) hz
    have hnext := hnextRead _ r (ws ++ rest) (by decide) hr
    have hbody := hbodyRead rest helse
    rw [List.cons_append, List.cons_append, List.append_assoc, List.cons_append,
      List.append_assoc, List.cons_append, List.append_assoc]
    exact Surface.readStmt_yields.mpr (.inl ⟨not_leadsKeyword_cons hk (by decide),
      .inl ⟨not_leadsKeyword_cons hk (by decide), .inr ⟨k, _, rfl, hk, l, _, rfl, hl,
        start, _, hstart, test, _, htest, next, _, hnext, body, hbody, rfl⟩⟩⟩)

theorem Statements.read {ts : List Token} {body : List Stmt} :
    Statements frame.offset ts body → ElsesNearestIn body →
      ∃ xs, Surface.resolveBlock frame xs = body ∧
        ∀ (r : Token) (input rest : List Token), input = ts ++ r :: rest →
          r.isPunctuator "\x7d" → ∀ done bound (h : input.length ≤ bound),
            (readBlock done input h).Yields (done.reverse ++ xs) rest
  | .nil, _ => by
    refine ⟨[], rfl, fun r input rest hinput hr done bound hle => ?_⟩
    subst hinput
    exact Surface.readBlock_yields.mpr
      (.inr ⟨r, rest, rfl, hr, (List.append_nil _).symm, rfl⟩)
  | @Statements.cons _ ts us _ _ h hs, ⟨hnearest, hnearests⟩ => by
    obtain ⟨x, rfl, hx⟩ := h.read hnearest
    obtain ⟨xs, rfl, hxs⟩ := hs.read hnearests
    refine ⟨x :: xs, rfl, fun r input rest hinput hr done bound hle => ?_⟩
    rw [List.append_assoc] at hinput
    subst hinput
    -- what follows in the block is a statement or its end, and neither starts with `else`
    have hread := hx (us ++ r :: rest) fun _ => hs.not_leadsKeyword_else hr
    have hlt : (us ++ r :: rest).length ≤ bound := by
      rw [List.length_append] at hle
      omega
    have hmore := hxs r _ rest rfl hr (x :: done) bound hlt
    rw [List.reverse_cons, List.append_assoc] at hmore
    exact Surface.readBlock_yields.mpr
      (.inl ⟨h.not_leads_brace, h.atEnd_eq_false, x, _, hread, hlt, hmore⟩)

end

/-! ## 4. Functions and programs -/

theorem readIdentifier_cons {t : Token} {name : String} (rest : List Token)
    (hk : t.kind = .ident) (ht : t.text = some name) :
    (Surface.readIdentifier (t :: rest)).Yields name rest :=
  Surface.readIdentifier_yields.mpr ⟨t, rfl, hk, ht⟩

theorem not_mem_of_nodup {done names : List String} {name : String}
    (h : (done.reverse ++ name :: names).Nodup) : name ∉ done := by
  intro hmem
  have hne := (List.nodup_append.mp h).2.2 name (List.mem_reverse.mpr hmem) name
    List.mem_cons_self
  exact hne rfl

theorem Parameters.read {ts : List Token} {names : List String} (h : Parameters ts names) :
    ∀ (r : Token) (input rest : List Token), input = ts ++ r :: rest → r.isPunctuator ")" →
      ∀ done bound (h : input.length ≤ bound), (done.reverse ++ names).Nodup →
        (readMoreParams done input h).Yields (done.reverse ++ names) rest := by
  induction h with
  | last hk ht =>
    intro r input rest hinput hr done bound hle hnodup
    subst hinput
    have hread := readIdentifier_cons (r :: rest) hk ht
    exact Surface.readMoreParams_yields.mpr ⟨_, r :: rest, hread, not_mem_of_nodup hnodup,
      .inl ⟨not_leads_cons hr (by decide), r, rfl, hr, List.reverse_cons⟩⟩
  | @more t c name ts names hk ht hc _ ih =>
    intro r input rest hinput hr done bound hle hnodup
    subst hinput
    have hread := readIdentifier_cons (c :: (ts ++ r :: rest)) hk ht
    have hlt : (ts ++ r :: rest).length ≤ bound := by
      rw [List.cons_append, List.cons_append, List.length_cons, List.length_cons] at hle
      omega
    have hnames : done.reverse ++ name :: names = (name :: done).reverse ++ names := by simp
    have hmore := ih r _ rest rfl hr (name :: done) bound hlt (hnames ▸ hnodup)
    rw [← hnames] at hmore
    exact Surface.readMoreParams_yields.mpr ⟨name, _, hread, not_mem_of_nodup hnodup,
      .inr ⟨c, _, rfl, hc, hlt, hmore⟩⟩

theorem OptParameters.read {r : Token} {ts rest : List Token} {names : List String}
    (h : OptParameters ts names) (hr : r.isPunctuator ")") (hnodup : names.Nodup) :
    (readParams (ts ++ r :: rest)).Yields names rest := by
  cases h with
  | absent => exact Surface.readParams_yields.mpr (.inr ⟨r, rest, rfl, hr, rfl, rfl⟩)
  | present h =>
    have hread := h.read r _ rest rfl hr [] _ (Nat.le_refl _) hnodup
    have hnot : ¬ Leads ")" (ts ++ r :: rest) := by
      cases h with
      | last hk _ => exact not_leads_ident hk
      | more hk _ _ _ => exact not_leads_ident hk
    exact Surface.readParams_yields.mpr (.inl ⟨hnot, hread⟩)

theorem Definition.read {ts : List Token} {f : Function} (h : Definition ts f)
    (hnearest : f.ElsesNearest) (hdistinct : f.ParamsDistinct) :
    ∃ g, g.resolve = f ∧ ∀ rest, (readFunction (ts ++ rest)).Yields g rest := by
  cases h with
  | @intro t l r o c name ps ts names frame body hk ht hl hps hr ho hbody hc hframe =>
    obtain ⟨xs, rfl, hxs⟩ := hbody.read hnearest
    have hnodup : names.Nodup := map_name_slots frame names ▸ hdistinct
    have hblock (rest : List Token) :
        (readBlock [] (ts ++ c :: rest) (Nat.le_refl _)).Yields xs rest :=
      hxs c _ rest rfl hc [] _ (Nat.le_refl _)
    -- The walk over the trees that were read meets the variables in the order of the tokens.
    have hvars : Surface.variablesOfBlock xs = variableNames ts := by
      obtain ⟨_, _, _, rfl, _, _, _, _, hnames⟩ := Surface.readBlock_sound frame (hblock [])
      rw [Surface.variableNames_append hc (by decide), List.append_cancel_right_eq] at hnames
      exact hnames.symm
    let g : Surface.Function := ⟨name, t.loc, names, xs⟩
    have hg : g.frame = frame := by
      rw [hframe, ← hvars]
      rfl
    refine ⟨g, ?_, fun rest => ?_⟩
    · unfold Surface.Function.resolve
      rw [hg]
    · have hread := readIdentifier_cons (l :: (ps ++ r :: o :: (ts ++ c :: rest))) hk ht
      have hparams : (readParams (ps ++ r :: o :: (ts ++ c :: rest))).Yields names
          (o :: (ts ++ c :: rest)) := hps.read hr hnodup
      rw [List.cons_append, List.cons_append, List.append_assoc, List.cons_append,
        List.cons_append, List.append_assoc]
      exact Surface.readFunction_yields.mpr ⟨name, _, hread, l, _, rfl, hl, names, _, hparams,
        o, _, rfl, ho, xs, hblock rest, rfl⟩

theorem Definition.atEnd_eq_false {ts us : List Token} {f : Function} (h : Definition ts f) :
    Surface.atEnd (ts ++ us) = false := by
  have hends := h.noEnd
  cases h with
  | intro _ _ _ _ _ _ _ _ _ => exact beq_false_of_ne (hends _ List.mem_cons_self)

theorem Program.read {ts : List Token} {p : StackCompiler.Program} (h : Program ts p)
    (hnearest : ∀ f ∈ p, f.ElsesNearest) (hdistinct : ∀ f ∈ p, f.ParamsDistinct) :
    ∃ gs, gs.map Surface.Function.resolve = p ∧
      ∀ rest, Surface.atEnd rest → ∀ done,
        readFunctions done (ts ++ rest) = ⟨done.reverse ++ gs, none⟩ := by
  induction h with
  | nil =>
    refine ⟨[], rfl, fun rest hrest done => ?_⟩
    rw [List.nil_append, readFunctions, if_pos hrest, List.append_nil]
  | @cons ts us f p hf _ ih =>
    obtain ⟨hnear, hnears⟩ := List.forall_mem_cons.mp hnearest
    obtain ⟨hdist, hdists⟩ := List.forall_mem_cons.mp hdistinct
    obtain ⟨g, rfl, hg⟩ := hf.read hnear hdist
    obtain ⟨gs, rfl, hgs⟩ := ih hnears hdists
    refine ⟨g :: gs, rfl, fun rest hrest done => ?_⟩
    obtain ⟨_, hread⟩ := hg (us ++ rest)
    have hmore := hgs rest hrest (g :: done)
    rw [List.reverse_cons, List.append_assoc] at hmore
    rw [List.append_assoc, readFunctions, if_neg, hread]
    · exact hmore
    · rw [hf.atEnd_eq_false]
      exact Bool.false_ne_true

end Grammar

end StackCompiler
