import StackCompiler.Proofs.Grammar.Changes
import StackCompiler.Proofs.Grammar.Viability

/-!
# What a reading depends on

A change that leaves alone the kinds and the texts of the tokens up to the one at which a reading
ends carries over to what is yielded (`yields_readFunction`) and to where reading stops
(`fails_readFunction`). So the place at which reading a program stops is a matter of the tokens up
to that place (`Change.halt_readFunctions`).
-/

namespace StackCompiler

namespace Surface

/-! ## 1. Rules that start at any bound -/

/-- What a reader started at is seen if the place where it stops is. -/
theorem Viable.sees {c : Change} {P : List Token → Prop} {ts : List Token} {stuck : Stuck}
    (h : Viable P ts stuck) (sees : c.Sees stuck.rest) : c.Sees ts :=
  sees.mono h.length_le

section Lengths

variable {bound : Nat} {ts rest : List Token}

theorem readChain_le {n : Nat} {a e : Expr} {hlt : ts.length < bound}
    (h : (readChain n a ts hlt).Yields e rest) : rest.length ≤ ts.length := by
  obtain ⟨used, rfl, -⟩ := readChain_sound .empty h
  rw [List.length_append]
  exact Nat.le_add_left _ _

theorem readMoreArgs_le {done es : List Expr} {hle : ts.length ≤ bound}
    (h : (readMoreArgs done ts hle).Yields es rest) : rest.length ≤ ts.length := by
  obtain ⟨_, used, r, -, rfl, -⟩ := readMoreArgs_sound .empty h
  rw [List.length_append]
  exact Nat.le_add_left_of_le (Nat.le_succ _)

theorem readBlock_le {done body : List Stmt} {hle : ts.length ≤ bound}
    (h : (readBlock done ts hle).Yields body rest) : rest.length ≤ ts.length := by
  obtain ⟨_, used, r, -, rfl, -⟩ := readBlock_sound .empty h
  rw [List.length_append]
  exact Nat.le_add_left_of_le (Nat.le_succ _)

end Lengths

theorem readMoreParams_le {bound : Nat} {done names : List String} {ts rest : List Token}
    {hle : ts.length ≤ bound} (h : (readMoreParams done ts hle).Yields names rest) :
    rest.length ≤ ts.length := by
  obtain ⟨name, mid, hname, -, ⟨-, r, rfl, -⟩ | ⟨c, us, rfl, -, _, hmore⟩⟩ :=
    readMoreParams_yields.mp h
  · exact Nat.le_of_lt (Nat.lt_of_succ_lt hname.shorter)
  · have hlt := Nat.lt_of_succ_lt hname.shorter
    exact (readMoreParams_le hmore).trans (Nat.le_of_lt hlt)
termination_by ts.length
decreasing_by
  exact hlt

theorem readChain_fails_le {n bound : Nat} {a : Expr} {ts : List Token} {stuck : Stuck}
    {hlt : ts.length < bound} (h : (readChain n a ts hlt).Fails stuck) :
    stuck.rest.length ≤ ts.length := by
  obtain ⟨op, t, us, rfl, -, -, hb | ⟨b, mid, hb, _, hchain⟩⟩ := readChain_fails.mp h
  · exact Nat.le_succ_of_le (readLevel_viable .empty hb).length_le
  · have hshorter := hb.shorter
    exact (readChain_fails_le hchain).trans (Nat.le_succ_of_le (Nat.le_of_lt hshorter))
termination_by ts.length
decreasing_by
  subst_vars
  exact Nat.lt_succ_of_lt hshorter

/-! ## 2. What is yielded -/

section Yields

/-- What stands behind an identifier may be hidden. -/
theorem yields_readIdentifier (c : Change) {ts rest : List Token} {name : String}
    (h : (readIdentifier ts).Yields name rest) (sees : c.Sees ts) :
    (readIdentifier (c.apply ts)).Yields name (c.apply rest) := by
  obtain ⟨t, rfl, hk, ht⟩ := readIdentifier_yields.mp h
  exact readIdentifier_yields.mpr ⟨_, sees.apply_cons, hk, ht⟩

mutual

theorem yields_readExpr (c : Change) {ts rest : List Token} {e : Expr}
    (h : (readExpr ts).Yields e rest) (sees : c.Sees rest) :
    (readExpr (c.apply ts)).Yields (e.relocate c.move) (c.apply rest) := by
  obtain ⟨a, mid, ha, hmore⟩ := readExpr_yields.mp h
  have hlt := ha.shorter
  refine readExpr_yields.mpr ⟨a.relocate c.move, c.apply mid, ?_, ?_⟩
  · refine yields_readLevel c ha (sees.mono ?_)
    rcases hmore with ⟨-, -, rfl⟩ | ⟨eq, us, rfl, -, b, hb, -⟩
    · exact Nat.le_refl _
    · exact Nat.le_succ_of_le (Nat.le_of_lt hb.shorter)
  · rcases hmore with ⟨hnot, rfl, rfl⟩ | ⟨eq, us, rfl, heq, b, hb, rfl⟩
    · exact .inl ⟨mt (sees.leads "=").mp hnot, rfl, rfl⟩
    · have seesRight := sees.before hb
      have seesWhole := seesRight.mono (Nat.le_of_succ_le (Nat.le_of_lt hlt))
      have start := seesWhole.startOf (Nat.zero_lt_of_lt hlt)
      refine .inr ⟨_, _, seesRight.apply_front eq, heq, _, yields_readLevel c hb sees, ?_⟩
      rw [start, Expr.relocate]
termination_by (ts.length, maxLevel + 2)
decreasing_by
  · exact Prod.Lex.right _ (Nat.lt_succ_self _)
  · exact Prod.Lex.left _ _ (by subst_vars; simp only [List.length_cons] at hlt; omega)

theorem yields_readLevel (c : Change) {n : Nat} {ts rest : List Token} {e : Expr}
    (h : (readLevel n ts).Yields e rest) (sees : c.Sees rest) :
    (readLevel n (c.apply ts)).Yields (e.relocate c.move) (c.apply rest) := by
  have seesWhole := sees.before h
  match n with
  | 0 =>
    rcases readLevel_zero_yields.mp h with ⟨hplus, ⟨hminus, h⟩ | ⟨t, us, rfl, ht, a, ha, rfl⟩⟩ |
      ⟨t, us, rfl, ht, a, ha, rfl⟩
    · exact readLevel_zero_yields.mpr (.inl ⟨mt (seesWhole.leads "+").mp hplus,
        .inl ⟨mt (seesWhole.leads "-").mp hminus,
          yields_readPrimary c h sees⟩⟩)
    · have seesOperand := sees.before ha
      exact readLevel_zero_yields.mpr (.inl ⟨mt (seesWhole.leads "+").mp hplus,
        .inr ⟨_, _, seesOperand.apply_front t, ht, _, yields_readLevel c ha sees, rfl⟩⟩)
    · have seesOperand := sees.before ha
      exact readLevel_zero_yields.mpr
        (.inr ⟨_, _, seesOperand.apply_front t, ht, _, yields_readLevel c ha sees, rfl⟩)
  | n + 1 =>
    obtain ⟨a, mid, ha, hlt, hchain⟩ := readLevel_succ_yields.mp h
    have hle := readChain_le hchain
    have hfirst := yields_readLevel c ha (sees.mono hle)
    exact readLevel_succ_yields.mpr ⟨_, _, hfirst, hfirst.shorter,
      yields_readChain c hchain sees hfirst.shorter⟩
termination_by (ts.length, n + 1)
decreasing_by
  · exact Prod.Lex.right _ (Nat.lt_succ_self _)
  · exact Prod.Lex.left _ _ (by subst_vars; simp only [List.length_cons]; omega)
  · exact Prod.Lex.left _ _ (by subst_vars; simp only [List.length_cons]; omega)
  · exact Prod.Lex.right _ (Nat.lt_succ_self _)
  · exact Prod.Lex.left _ _ (by omega)

theorem yields_readChain (c : Change) {n bound bound' : Nat} {a e : Expr} {ts rest : List Token}
    {hlt : ts.length < bound} (h : (readChain n a ts hlt).Yields e rest) (sees : c.Sees rest)
    (hlt' : (c.apply ts).length < bound') :
    (readChain n (a.relocate c.move) (c.apply ts) hlt').Yields (e.relocate c.move)
      (c.apply rest) := by
  rcases readChain_yields.mp h with ⟨hnot, rfl, rfl⟩ |
    ⟨op, t, us, rfl, ht, hlevel, b, mid, hb, hmid, hchain⟩
  · exact readChain_yields.mpr
      (.inl ⟨fun op hlevel => mt (sees.leads _).mp (hnot op hlevel), rfl, rfl⟩)
  · have hshorter := hb.shorter
    have seesMid := sees.mono (readChain_le hchain)
    have front := (seesMid.mono (Nat.le_of_lt hshorter)).apply_front t
    have hright := yields_readLevel c hb seesMid
    have hmid' := hright.shorter.trans (Nat.lt_of_succ_lt (front ▸ hlt'))
    exact readChain_yields.mpr (.inr ⟨op, _, _, front, ht, hlevel, _, _, hright, hmid',
      yields_readChain c hchain sees hmid'⟩)
termination_by (ts.length, 0)
decreasing_by
  · exact Prod.Lex.left _ _ (by subst_vars; simp only [List.length_cons]; omega)
  · exact Prod.Lex.left _ _ (by subst_vars; simp only [List.length_cons]; omega)

theorem yields_readPrimary (c : Change) {ts rest : List Token} {e : Expr}
    (h : (readPrimary ts).Yields e rest) (sees : c.Sees rest) :
    (readPrimary (c.apply ts)).Yields (e.relocate c.move) (c.apply rest) := by
  have seesWhole := sees.before h
  rcases readPrimary_yields.mp h with ⟨hnot, t, us, rfl, hatom⟩ |
    ⟨l, us, rfl, hl, a, mid, ha, r, rfl, hr, rfl⟩
  · refine readPrimary_yields.mpr (.inl ⟨mt (seesWhole.leads "(").mp hnot, _, _,
      seesWhole.apply_cons, ?_⟩)
    rcases hatom with ⟨name, hk, ht, ⟨hvar, rfl, rfl⟩ | ⟨l, vs, rfl, hl, args, hargs, rfl⟩⟩ |
      ⟨value, hk, rfl, rfl⟩
    · exact .inl ⟨name, hk, ht,
        .inl ⟨mt (sees.leads "(").mp hvar, rfl, rfl⟩⟩
    · have seesArgs := sees.before hargs
      refine .inl ⟨name, hk, ht,
        .inr ⟨_, _, seesArgs.apply_front l, hl, _, yields_readArgs c hargs sees, ?_⟩⟩
      rw [Expr.relocate, relocateArgs_eq]
      rfl
    · exact .inr ⟨value, hk, rfl, rfl⟩
  · have seesMid := sees.cons r
    have seesInner := seesMid.before ha
    exact readPrimary_yields.mpr (.inr ⟨_, _, seesInner.apply_front l, hl, _, _,
      yields_readExpr c ha seesMid, _, sees.apply_front r, hr, rfl⟩)
termination_by (ts.length, 0)
decreasing_by
  · exact Prod.Lex.left _ _ (by subst_vars; simp only [List.length_cons]; omega)
  · exact Prod.Lex.left _ _ (by subst_vars; simp only [List.length_cons]; omega)

theorem yields_readArgs (c : Change) {ts rest : List Token} {es : List Expr}
    (h : (readArgs ts).Yields es rest) (sees : c.Sees rest) :
    (readArgs (c.apply ts)).Yields (es.map (Expr.relocate c.move)) (c.apply rest) := by
  rcases readArgs_yields.mp h with ⟨hnot, hmore⟩ | ⟨r, us, rfl, hr, rfl, rfl⟩
  · have seesWhole := sees.before h
    exact readArgs_yields.mpr (.inl ⟨fun hleads => hnot ((seesWhole.leads ")").mp hleads),
      yields_readMoreArgs c hmore sees _⟩)
  · exact readArgs_yields.mpr (.inr ⟨_, _, sees.apply_front r, hr, rfl, rfl⟩)
termination_by (ts.length, maxLevel + 4)
decreasing_by
  · exact Prod.Lex.right _ (Nat.lt_succ_self _)

theorem yields_readMoreArgs (c : Change) {bound bound' : Nat} {done es : List Expr}
    {ts rest : List Token} {hle : ts.length ≤ bound} (h : (readMoreArgs done ts hle).Yields es rest)
    (sees : c.Sees rest) (hle' : (c.apply ts).length ≤ bound') :
    (readMoreArgs (done.map (Expr.relocate c.move)) (c.apply ts) hle').Yields
      (es.map (Expr.relocate c.move)) (c.apply rest) := by
  obtain ⟨a, mid, ha, hmore⟩ := readMoreArgs_yields.mp h
  have hlt := ha.shorter
  rcases hmore with ⟨hnot, r, rfl, hr, rfl⟩ | ⟨comma, us, rfl, hc, hus, hmore⟩
  · have seesMid := sees.cons r
    refine readMoreArgs_yields.mpr ⟨_, _, yields_readExpr c ha seesMid,
      .inl ⟨mt (seesMid.leads ",").mp hnot, _, sees.apply_front r, hr, ?_⟩⟩
    rw [← List.map_cons, List.map_reverse]
  · have seesMore := sees.mono (readMoreArgs_le hmore)
    have harg := yields_readExpr c ha (seesMore.cons comma)
    have front := seesMore.apply_front comma
    have hus' := (Nat.le_of_lt (Nat.lt_of_succ_lt (front ▸ harg.shorter))).trans hle'
    exact readMoreArgs_yields.mpr ⟨_, _, harg, .inr ⟨_, _, front, hc, hus',
      yields_readMoreArgs c hmore sees hus'⟩⟩
termination_by (ts.length, maxLevel + 3)
decreasing_by
  · exact Prod.Lex.right _ (Nat.lt_succ_self _)
  · exact Prod.Lex.right _ (Nat.lt_succ_self _)
  · exact Prod.Lex.left _ _ (by subst_vars; simp only [List.length_cons] at hlt; omega)

end

theorem yields_readClause (c : Change) {ending : String} {ts rest : List Token}
    {clause : Option Expr} (h : (readClause ending ts).Yields clause rest) (sees : c.Sees rest) :
    (readClause ending (c.apply ts)).Yields (clause.map (Expr.relocate c.move)) (c.apply rest) := by
  have seesWhole := sees.before h
  rcases readClause_yields.mp h with ⟨hnot, a, mid, ha, z, rfl, hz, rfl⟩ |
    ⟨z, us, rfl, hz, rfl, rfl⟩
  · exact readClause_yields.mpr (.inl ⟨mt (seesWhole.leads ending).mp hnot, _, _,
      yields_readExpr c ha (sees.cons z), _, sees.apply_front z, hz, rfl⟩)
  · exact readClause_yields.mpr (.inr ⟨_, _, sees.apply_front z, hz, rfl, rfl⟩)

mutual

theorem yields_readStmt (c : Change) {ts rest : List Token} {s : Stmt}
    (h : (readStmt ts).Yields s rest) (sees : c.Sees rest) :
    (readStmt (c.apply ts)).Yields (s.relocate c.move) (c.apply rest) := by
  have seesWhole := sees.before h
  have keyword {s : String} (hnot : ¬ LeadsKeyword s ts) := mt (seesWhole.leadsKeyword s).mp hnot
  refine readStmt_yields.mpr ?_
  rcases readStmt_yields.mp h with ⟨hret, ⟨hif, ⟨hfor, ⟨hblock, a, mid, ha, z, rfl, hz, rfl⟩ |
    ⟨l, us, rfl, hl, body, hbody, rfl⟩⟩ | ⟨k, us, rfl, hk, l, vs, rfl, hl, start, mid, hstart, test,
      mid', htest, next, mid'', hnext, body, hbody, rfl⟩⟩ | ⟨k, us, rfl, hk, l, vs, rfl, hl, test,
        mid, htest, r, ws, rfl, hr, yes, mid', hyes, helse⟩⟩ | ⟨k, us, rfl, hk, a, mid, ha, z, rfl,
          hz, rfl⟩
  -- An expression.
  · exact .inl ⟨keyword hret, .inl ⟨keyword hif, .inl ⟨keyword hfor, .inl
      ⟨mt (seesWhole.leads _).mp hblock, _, _, yields_readExpr c ha (sees.cons z), _,
        sees.apply_front z, hz, rfl⟩⟩⟩⟩
  -- A block.
  · have seesBody := sees.mono (readBlock_le hbody)
    have hbody := yields_readBlock c hbody sees (Nat.le_refl _)
    refine .inl ⟨keyword hret, .inl ⟨keyword hif, .inl ⟨keyword hfor, .inr
      ⟨_, _, seesBody.apply_front l, hl, _, hbody, ?_⟩⟩⟩⟩
    rw [Stmt.relocate, relocateBlock_eq]
  -- A loop.
  · have hlt := hnext.shorter.trans (htest.shorter.trans hstart.shorter)
    have seesBody := sees.before hbody
    have seesNext := seesBody.before hnext
    have seesTest := seesNext.before htest
    have seesStart := seesTest.before hstart
    have hstart := yields_readClause c hstart seesTest
    have htest := yields_readClause c htest seesNext
    have hnext := yields_readClause c hnext seesBody
    exact .inl ⟨keyword hret, .inl ⟨keyword hif, .inr ⟨_, _, (seesStart.cons l).apply_front k, hk,
      _, _, seesStart.apply_front l, hl, _, _, hstart, _, _, htest, _, _, hnext, _,
      yields_readStmt c hbody sees, rfl⟩⟩⟩
  -- A conditional.
  · have hws := Nat.lt_of_succ_lt htest.shorter
    have hmid := hyes.shorter
    have seesElse : c.Sees mid' := by
      rcases helse with ⟨-, -, rfl⟩ | ⟨o, xs, rfl, -, no, hno, -⟩
      · exact sees
      · exact (sees.before hno).cons o
    have seesYes := seesElse.before hyes
    have seesTest := (seesYes.cons r).before htest
    refine .inl ⟨keyword hret, .inr ⟨_, _, (seesTest.cons l).apply_front k, hk, _, _,
      seesTest.apply_front l, hl, _, _, yields_readExpr c htest (seesYes.cons r), _, _,
      seesYes.apply_front r, hr, _, _, yields_readStmt c hyes seesElse, ?_⟩⟩
    rcases helse with ⟨hnot, rfl, rfl⟩ | ⟨o, xs, rfl, ho, no, hno, rfl⟩
    · exact .inl ⟨mt (sees.leadsKeyword _).mp hnot, rfl, rfl⟩
    · have seesNo := sees.before hno
      exact .inr ⟨_, _, seesNo.apply_front o, ho, _, yields_readStmt c hno sees, rfl⟩
  -- A return.
  · have seesValue := (sees.cons z).before ha
    exact .inr ⟨_, _, seesValue.apply_front k, hk, _, _, yields_readExpr c ha (sees.cons z), _,
      sees.apply_front z, hz, rfl⟩
termination_by (ts.length, 0)
decreasing_by
  all_goals
    refine Prod.Lex.left _ _ ?_
    subst_vars
    simp only [List.length_cons] at *
    omega

theorem yields_readBlock (c : Change) {bound bound' : Nat} {done body : List Stmt}
    {ts rest : List Token} {hle : ts.length ≤ bound} (h : (readBlock done ts hle).Yields body rest)
    (sees : c.Sees rest) (hle' : (c.apply ts).length ≤ bound') :
    (readBlock (done.map (Stmt.relocate c.move)) (c.apply ts) hle').Yields
      (body.map (Stmt.relocate c.move)) (c.apply rest) := by
  have seesWhole := sees.mono (readBlock_le h)
  rcases readBlock_yields.mp h with ⟨hnot, hend, s, mid, hs, hmid, hmore⟩ |
    ⟨r, us, rfl, hr, rfl, rfl⟩
  · have hlt := hs.shorter
    have first := yields_readStmt c hs (sees.mono (readBlock_le hmore))
    have hmid' : (c.apply mid).length ≤ bound' := (Nat.le_of_lt first.shorter).trans hle'
    have more := yields_readBlock c hmore sees hmid'
    rw [← seesWhole.atEnd_apply] at hend
    exact readBlock_yields.mpr
      (.inl ⟨mt (seesWhole.leads _).mp hnot, hend, _, _, first, hmid', more⟩)
  · refine readBlock_yields.mpr (.inr ⟨_, _, sees.apply_front r, hr, ?_, rfl⟩)
    rw [List.map_reverse]
termination_by (ts.length, 1)
decreasing_by
  · exact Prod.Lex.right _ (Nat.lt_succ_self _)
  · exact Prod.Lex.left _ _ (by omega)

end

theorem yields_readMoreParams (c : Change) {bound bound' : Nat} {done names : List String}
    {ts rest : List Token} {hle : ts.length ≤ bound}
    (h : (readMoreParams done ts hle).Yields names rest) (sees : c.Sees rest)
    (hle' : (c.apply ts).length ≤ bound') :
    (readMoreParams done (c.apply ts) hle').Yields names (c.apply rest) := by
  have seesWhole := sees.mono (readMoreParams_le h)
  obtain ⟨name, mid, hname, hnew, ⟨hnot, r, rfl, hr, rfl⟩ | ⟨comma, us, rfl, hc, _, hmore⟩⟩ :=
    readMoreParams_yields.mp h
  · exact readMoreParams_yields.mpr ⟨_, _, yields_readIdentifier c hname seesWhole, hnew,
      .inl ⟨mt ((sees.cons r).leads _).mp hnot, _, sees.apply_front r, hr, rfl⟩⟩
  · have hlt := Nat.lt_of_succ_lt hname.shorter
    have seesMore := sees.mono (readMoreParams_le hmore)
    have param := yields_readIdentifier c hname seesWhole
    have front := seesMore.apply_front comma
    have hus' := (Nat.le_of_lt (Nat.lt_of_succ_lt (front ▸ param.shorter))).trans hle'
    exact readMoreParams_yields.mpr ⟨_, _, param, hnew,
      .inr ⟨_, _, front, hc, hus', yields_readMoreParams c hmore sees hus'⟩⟩
termination_by ts.length
decreasing_by
  exact hlt

theorem yields_readParams (c : Change) {ts rest : List Token} {names : List String}
    (h : (readParams ts).Yields names rest) (sees : c.Sees rest) :
    (readParams (c.apply ts)).Yields names (c.apply rest) := by
  rcases readParams_yields.mp h with ⟨hnot, hmore⟩ | ⟨r, us, rfl, hr, rfl, rfl⟩
  · have seesWhole := sees.before h
    exact readParams_yields.mpr
      (.inl ⟨mt (seesWhole.leads _).mp hnot, yields_readMoreParams c hmore sees _⟩)
  · exact readParams_yields.mpr (.inr ⟨_, _, sees.apply_front r, hr, rfl, rfl⟩)

/-- A function is read alike, at its new place. -/
theorem yields_readFunction (c : Change) {ts rest : List Token} {f : Function}
    (h : (readFunction ts).Yields f rest) (sees : c.Sees rest) :
    (readFunction (c.apply ts)).Yields (f.relocate c.move) (c.apply rest) := by
  have hlt := h.shorter
  obtain ⟨name, us, hname, l, vs, rfl, hl, params, mid, hparams, o, ws, rfl, ho, body, hbody,
    rfl⟩ := readFunction_yields.mp h
  have seesBody := sees.mono (readBlock_le hbody)
  have seesParams := (seesBody.cons o).before hparams
  have seesWhole := sees.mono (Nat.le_of_lt hlt)
  have start := seesWhole.startOf (Nat.zero_lt_of_lt hlt)
  refine readFunction_yields.mpr ⟨_, _, yields_readIdentifier c hname seesWhole, _, _,
    seesParams.apply_front l, hl, _, _, yields_readParams c hparams (seesBody.cons o), _, _,
    seesBody.apply_front o, ho, _, yields_readBlock c hbody sees (Nat.le_refl _), ?_⟩
  rw [start, Function.relocate, relocateBlock_eq]

end Yields

/-! ## 3. Where reading stops -/

section Fails

theorem fails_readIdentifier (c : Change) {ts : List Token} {stuck : Stuck}
    (h : (readIdentifier ts).Fails stuck) (sees : c.Sees stuck.rest) :
    (readIdentifier (c.apply ts)).Fails (c.stuck stuck) := by
  rw [readIdentifier_rest h] at sees
  obtain ⟨hnot, hwanting⟩ := readIdentifier_fails.mp h
  refine readIdentifier_fails.mpr ⟨?_, by rw [sees.wanting, hwanting]⟩
  rintro ⟨t, us, name, heq, hk, ht⟩
  have noEnd : ∀ t : Token, t.kind = .eof → ¬ (t.kind = .ident ∧ t.text = some name) := by
    rintro t hend ⟨hk, -⟩
    rw [hk] at hend
    cases hend
  obtain ⟨t', us', hts, found⟩ := (sees.front (fun t => Iff.rfl) noEnd).mp ⟨t, us, heq, hk, ht⟩
  exact hnot ⟨t', us', name, hts, found⟩

theorem fails_closing (c : Change) {ending : String} {ts : List Token} {stuck : Stuck}
    (inner : (readExpr ts).Fails stuck → (readExpr (c.apply ts)).Fails (c.stuck stuck))
    (h : StopsClosed ending ts stuck) (sees : c.Sees stuck.rest) :
    StopsClosed ending (c.apply ts) (c.stuck stuck) := by
  refine h.imp inner ?_
  rintro ⟨a, mid, ha, hmiss⟩
  exact ⟨_, _, yields_readExpr c ha (hmiss.rest ▸ sees), sees.misses hmiss⟩

mutual

theorem fails_readExpr (c : Change) {ts : List Token} {stuck : Stuck}
    (h : (readExpr ts).Fails stuck) (sees : c.Sees stuck.rest) :
    (readExpr (c.apply ts)).Fails (c.stuck stuck) := by
  rcases readExpr_fails.mp h with h | ⟨a, mid, ha, eq, us, rfl, heq, hb⟩
  · exact readExpr_fails.mpr (.inl (fails_readLevel c h sees))
  · have hlt := Nat.lt_of_succ_lt ha.shorter
    have seesRight := (readLevel_viable .empty hb).sees sees
    exact readExpr_fails.mpr (.inr ⟨_, _, yields_readLevel c ha (seesRight.cons eq), _, _,
      seesRight.apply_front eq, heq, fails_readLevel c hb sees⟩)
termination_by (ts.length, maxLevel + 2)
decreasing_by
  · exact Prod.Lex.right _ (Nat.lt_succ_self _)
  · exact Prod.Lex.left _ _ hlt

theorem fails_readLevel (c : Change) {n : Nat} {ts : List Token} {stuck : Stuck}
    (h : (readLevel n ts).Fails stuck) (sees : c.Sees stuck.rest) :
    (readLevel n (c.apply ts)).Fails (c.stuck stuck) := by
  have seesWhole := (readLevel_viable .empty h).sees sees
  match n with
  | 0 =>
    rcases readLevel_zero_fails.mp h with ⟨hplus, ⟨hminus, h⟩ | ⟨t, us, rfl, ht, h⟩⟩ |
      ⟨t, us, rfl, ht, h⟩
    · exact readLevel_zero_fails.mpr (.inl ⟨mt (seesWhole.leads _).mp hplus,
        .inl ⟨mt (seesWhole.leads _).mp hminus, fails_readPrimary c h sees⟩⟩)
    · exact readLevel_zero_fails.mpr (.inl ⟨mt (seesWhole.leads _).mp hplus,
        .inr ⟨_, _, seesWhole.apply_cons, ht, fails_readLevel c h sees⟩⟩)
    · exact readLevel_zero_fails.mpr
        (.inr ⟨_, _, seesWhole.apply_cons, ht, fails_readLevel c h sees⟩)
  | n + 1 =>
    rcases readLevel_succ_fails.mp h with h | ⟨a, mid, ha, hlt, hchain⟩
    · exact readLevel_succ_fails.mpr (.inl (fails_readLevel c h sees))
    · have first := yields_readLevel c ha (sees.mono (readChain_fails_le hchain))
      exact readLevel_succ_fails.mpr (.inr ⟨_, _, first, first.shorter,
        fails_readChain c hchain sees first.shorter⟩)
termination_by (ts.length, n + 1)
decreasing_by
  · exact Prod.Lex.right _ (Nat.lt_succ_self _)
  · exact Prod.Lex.left _ _ (by subst_vars; simp only [List.length_cons]; omega)
  · exact Prod.Lex.left _ _ (by subst_vars; simp only [List.length_cons]; omega)
  · exact Prod.Lex.right _ (Nat.lt_succ_self _)
  · exact Prod.Lex.left _ _ (by omega)

theorem fails_readChain (c : Change) {n bound bound' : Nat} {a : Expr} {ts : List Token}
    {stuck : Stuck} {hlt : ts.length < bound} (h : (readChain n a ts hlt).Fails stuck)
    (sees : c.Sees stuck.rest) (hlt' : (c.apply ts).length < bound') :
    (readChain n (a.relocate c.move) (c.apply ts) hlt').Fails (c.stuck stuck) := by
  have seesWhole := sees.mono (readChain_fails_le h)
  obtain ⟨op, t, us, rfl, ht, hlevel, hb | ⟨b, mid, hb, _, hchain⟩⟩ := readChain_fails.mp h
  · exact readChain_fails.mpr ⟨op, _, _, seesWhole.apply_cons, ht, hlevel,
      .inl (fails_readLevel c hb sees)⟩
  · have hshorter := hb.shorter
    have front := seesWhole.apply_cons
    have right := yields_readLevel c hb (sees.mono (readChain_fails_le hchain))
    have hmid := right.shorter.trans (Nat.lt_of_succ_lt (front ▸ hlt'))
    exact readChain_fails.mpr ⟨op, _, _, front, ht, hlevel,
      .inr ⟨_, _, right, hmid, fails_readChain c hchain sees hmid⟩⟩
termination_by (ts.length, 0)
decreasing_by
  · exact Prod.Lex.left _ _ (by subst_vars; simp only [List.length_cons]; omega)
  · exact Prod.Lex.left _ _ (by subst_vars; simp only [List.length_cons]; omega)

theorem fails_readPrimary (c : Change) {ts : List Token} {stuck : Stuck}
    (h : (readPrimary ts).Fails stuck) (sees : c.Sees stuck.rest) :
    (readPrimary (c.apply ts)).Fails (c.stuck stuck) := by
  have seesWhole := (readPrimary_viable .empty h).sees sees
  refine readPrimary_fails.mpr ?_
  rcases readPrimary_fails.mp h with ⟨hnot, ⟨hatom, hstuck⟩ |
    ⟨t, us, rfl, name, hk, ht, l, vs, rfl, hl, hargs⟩⟩ | ⟨l, us, rfl, hl, h⟩
  · refine .inl ⟨mt (seesWhole.leads _).mp hnot, .inl ⟨mt seesWhole.leadsAtom.mp hatom, ?_⟩⟩
    rw [seesWhole.atPrimary, hstuck]
  · have seesArgs := (readArgs_viable .empty hargs).sees sees
    exact .inl ⟨mt (seesWhole.leads _).mp hnot, .inr ⟨_, _, seesWhole.apply_cons, name, hk, ht, _,
      _, seesArgs.apply_front l, hl, fails_readArgs c hargs sees⟩⟩
  · exact .inr ⟨_, _, seesWhole.apply_cons, hl,
      fails_closing c (fun h => fails_readExpr c h sees) h sees⟩
termination_by (ts.length, 0)
decreasing_by
  · exact Prod.Lex.left _ _ (by subst_vars; simp only [List.length_cons]; omega)
  · exact Prod.Lex.left _ _ (by subst_vars; simp only [List.length_cons]; omega)

theorem fails_readArgs (c : Change) {ts : List Token} {stuck : Stuck}
    (h : (readArgs ts).Fails stuck) (sees : c.Sees stuck.rest) :
    (readArgs (c.apply ts)).Fails (c.stuck stuck) := by
  have seesWhole := (readArgs_viable .empty h).sees sees
  obtain ⟨hnot, h⟩ := readArgs_fails.mp h
  exact readArgs_fails.mpr ⟨mt (seesWhole.leads _).mp hnot, fails_readMoreArgs c h sees _⟩
termination_by (ts.length, maxLevel + 4)
decreasing_by
  · exact Prod.Lex.right _ (Nat.lt_succ_self _)

theorem fails_readMoreArgs (c : Change) {bound bound' : Nat} {done : List Expr} {ts : List Token}
    {stuck : Stuck} {hle : ts.length ≤ bound} (h : (readMoreArgs done ts hle).Fails stuck)
    (sees : c.Sees stuck.rest) (hle' : (c.apply ts).length ≤ bound') :
    (readMoreArgs (done.map (Expr.relocate c.move)) (c.apply ts) hle').Fails (c.stuck stuck) := by
  rcases readMoreArgs_fails.mp h with h | ⟨a, mid, ha, ⟨hnot, hmiss⟩ |
    ⟨comma, us, rfl, hc, _, hmore⟩⟩
  · exact readMoreArgs_fails.mpr (.inl (fails_readExpr c h sees))
  · have seesMid : c.Sees mid := hmiss.rest ▸ sees
    exact readMoreArgs_fails.mpr (.inr ⟨_, _, yields_readExpr c ha seesMid,
      .inl ⟨mt (seesMid.leads _).mp hnot, sees.misses hmiss⟩⟩)
  · have hlt := Nat.lt_of_succ_lt ha.shorter
    have seesMore := (readMoreArgs_viable .empty hmore).sees sees
    have arg := yields_readExpr c ha (seesMore.cons comma)
    have front := seesMore.apply_front comma
    have hus := (Nat.le_of_lt (Nat.lt_of_succ_lt (front ▸ arg.shorter))).trans hle'
    exact readMoreArgs_fails.mpr (.inr ⟨_, _, arg, .inr ⟨_, _, front, hc, hus,
      fails_readMoreArgs c hmore sees hus⟩⟩)
termination_by (ts.length, maxLevel + 3)
decreasing_by
  · exact Prod.Lex.right _ (Nat.lt_succ_self _)
  · exact Prod.Lex.left _ _ hlt

end

theorem fails_readClause (c : Change) {ending : String} {ts : List Token} {stuck : Stuck}
    (hs : ending ∈ Token.brackets) (h : (readClause ending ts).Fails stuck)
    (sees : c.Sees stuck.rest) : (readClause ending (c.apply ts)).Fails (c.stuck stuck) := by
  have seesWhole := (readClause_viable .empty hs h).sees sees
  obtain ⟨hnot, h⟩ := readClause_fails.mp h
  exact readClause_fails.mpr ⟨mt (seesWhole.leads _).mp hnot,
    fails_closing c (fun h => fails_readExpr c h sees) h sees⟩

theorem fails_loop (c : Change) {us : List Token} {stuck : Stuck}
    (stmt : ∀ ws : List Token, ws.length < us.length → (readStmt ws).Fails stuck →
      (readStmt (c.apply ws)).Fails (c.stuck stuck))
    (h : StopsInLoop us stuck) (sees : c.Sees stuck.rest) :
    StopsInLoop (c.apply us) (c.stuck stuck) := by
  rcases h with hmiss | ⟨l, vs, rfl, hl, hstart | ⟨start, mid, hstart, htest |
    ⟨test, mid', htest, hnext | ⟨next, mid'', hnext, hbody⟩⟩⟩⟩
  · exact .inl (sees.misses hmiss)
  · have seesStart := (readClause_viable .empty (by decide) hstart).sees sees
    exact .inr ⟨_, _, seesStart.apply_front l, hl,
      .inl (fails_readClause c (by decide) hstart sees)⟩
  · have seesTest := (readClause_viable .empty (by decide) htest).sees sees
    have seesStart := seesTest.before hstart
    exact .inr ⟨_, _, seesStart.apply_front l, hl, .inr ⟨_, _, yields_readClause c hstart seesTest,
      .inl (fails_readClause c (by decide) htest sees)⟩⟩
  · have seesNext := (readClause_viable .empty (by decide) hnext).sees sees
    have seesTest := seesNext.before htest
    have seesStart := seesTest.before hstart
    exact .inr ⟨_, _, seesStart.apply_front l, hl, .inr ⟨_, _, yields_readClause c hstart seesTest,
      .inr ⟨_, _, yields_readClause c htest seesNext,
        .inl (fails_readClause c (by decide) hnext sees)⟩⟩⟩
  · have hlt := hnext.shorter.trans (htest.shorter.trans hstart.shorter)
    have seesBody := (readStmt_viable .empty hbody).sees sees
    have seesNext := seesBody.before hnext
    have seesTest := seesNext.before htest
    have seesStart := seesTest.before hstart
    exact .inr ⟨_, _, seesStart.apply_front l, hl, .inr ⟨_, _, yields_readClause c hstart seesTest,
      .inr ⟨_, _, yields_readClause c htest seesNext,
        .inr ⟨_, _, yields_readClause c hnext seesBody, stmt _ (Nat.lt_succ_of_lt hlt) hbody⟩⟩⟩⟩

theorem fails_cond (c : Change) {us : List Token} {stuck : Stuck}
    (stmt : ∀ ws : List Token, ws.length < us.length → (readStmt ws).Fails stuck →
      (readStmt (c.apply ws)).Fails (c.stuck stuck))
    (h : StopsInCond us stuck) (sees : c.Sees stuck.rest) :
    StopsInCond (c.apply us) (c.stuck stuck) := by
  rcases h with hmiss | ⟨l, vs, rfl, hl, htest | ⟨test, mid, htest, hmiss |
    ⟨r, ws, rfl, hr, hyes | ⟨yes, mid', hyes, o, xs, rfl, ho, hno⟩⟩⟩⟩
  · exact .inl (sees.misses hmiss)
  · have seesTest := (readExpr_viable .empty htest).sees sees
    exact .inr ⟨_, _, seesTest.apply_front l, hl, .inl (fails_readExpr c htest sees)⟩
  · have seesMid : c.Sees mid := hmiss.rest ▸ sees
    have seesTest := seesMid.before htest
    exact .inr ⟨_, _, seesTest.apply_front l, hl, .inr ⟨_, _, yields_readExpr c htest seesMid,
      .inl (sees.misses hmiss)⟩⟩
  · have hlt := Nat.lt_of_succ_lt htest.shorter
    have seesYes := (readStmt_viable .empty hyes).sees sees
    have seesTest := (seesYes.cons r).before htest
    exact .inr ⟨_, _, seesTest.apply_front l, hl, .inr ⟨_, _,
      yields_readExpr c htest (seesYes.cons r), .inr ⟨_, _, seesYes.apply_front r, hr,
        .inl (stmt _ (Nat.lt_succ_of_lt hlt) hyes)⟩⟩⟩
  · have hlt := (Nat.lt_of_succ_lt hyes.shorter).trans (Nat.lt_of_succ_lt htest.shorter)
    have seesNo := (readStmt_viable .empty hno).sees sees
    have seesYes := (seesNo.cons o).before hyes
    have seesTest := (seesYes.cons r).before htest
    exact .inr ⟨_, _, seesTest.apply_front l, hl, .inr ⟨_, _,
      yields_readExpr c htest (seesYes.cons r), .inr ⟨_, _, seesYes.apply_front r, hr,
        .inr ⟨_, _, yields_readStmt c hyes (seesNo.cons o), _, _, seesNo.apply_front o, ho,
          stmt _ (Nat.lt_succ_of_lt hlt) hno⟩⟩⟩⟩

mutual

theorem fails_readStmt (c : Change) {ts : List Token} {stuck : Stuck}
    (h : (readStmt ts).Fails stuck) (sees : c.Sees stuck.rest) :
    (readStmt (c.apply ts)).Fails (c.stuck stuck) := by
  have seesWhole := (readStmt_viable .empty h).sees sees
  have keyword {s : String} (hnot : ¬ LeadsKeyword s ts) := mt (seesWhole.leadsKeyword s).mp hnot
  refine readStmt_fails.mpr ?_
  rcases readStmt_fails.mp h with ⟨hret, ⟨hif, ⟨hfor, ⟨hblock, h⟩ | ⟨l, us, rfl, hl, hbody⟩⟩ |
    ⟨k, us, rfl, hk, h⟩⟩ | ⟨k, us, rfl, hk, h⟩⟩ | ⟨k, us, rfl, hk, h⟩
  -- An expression.
  · exact .inl ⟨keyword hret, .inl ⟨keyword hif, .inl ⟨keyword hfor, .inl
      ⟨mt (seesWhole.leads _).mp hblock,
        fails_closing c (fun h => fails_readExpr c h sees) h sees⟩⟩⟩⟩
  -- A block.
  · exact .inl ⟨keyword hret, .inl ⟨keyword hif, .inl ⟨keyword hfor, .inr
      ⟨_, _, seesWhole.apply_cons, hl, fails_readBlock c hbody sees _⟩⟩⟩⟩
  -- A loop.
  · exact .inl ⟨keyword hret, .inl ⟨keyword hif, .inr ⟨_, _, seesWhole.apply_cons, hk,
      fails_loop c (fun ws hlt hs => fails_readStmt c hs sees) h sees⟩⟩⟩
  -- A conditional.
  · exact .inl ⟨keyword hret, .inr ⟨_, _, seesWhole.apply_cons, hk,
      fails_cond c (fun ws hlt hs => fails_readStmt c hs sees) h sees⟩⟩
  -- A return.
  · exact .inr ⟨_, _, seesWhole.apply_cons, hk,
      fails_closing c (fun h => fails_readExpr c h sees) h sees⟩
termination_by (ts.length, 0)
decreasing_by
  all_goals
    refine Prod.Lex.left _ _ ?_
    subst_vars
    simp only [List.length_cons] at *
    omega

theorem fails_readBlock (c : Change) {bound bound' : Nat} {done : List Stmt} {ts : List Token}
    {stuck : Stuck} {hle : ts.length ≤ bound} (h : (readBlock done ts hle).Fails stuck)
    (sees : c.Sees stuck.rest) (hle' : (c.apply ts).length ≤ bound') :
    (readBlock (done.map (Stmt.relocate c.move)) (c.apply ts) hle').Fails (c.stuck stuck) := by
  have seesWhole := (readBlock_viable .empty h).sees sees
  obtain ⟨hnot, h⟩ := readBlock_fails.mp h
  refine readBlock_fails.mpr ⟨mt (seesWhole.leads _).mp hnot, ?_⟩
  rw [seesWhole.atEnd_apply]
  rcases h with ⟨hend, hwanting⟩ | ⟨hend, hs | ⟨s, mid, hs, _, hmore⟩⟩
  · exact .inl ⟨hend, by rw [seesWhole.wanting, hwanting]⟩
  · exact .inr ⟨hend, .inl (fails_readStmt c hs sees)⟩
  · have hlt := hs.shorter
    have first := yields_readStmt c hs ((readBlock_viable .empty hmore).sees sees)
    have hmid : (c.apply mid).length ≤ bound' := (Nat.le_of_lt first.shorter).trans hle'
    exact .inr ⟨hend, .inr ⟨_, _, first, hmid, fails_readBlock c hmore sees hmid⟩⟩
termination_by (ts.length, 1)
decreasing_by
  · exact Prod.Lex.right _ (Nat.lt_succ_self _)
  · exact Prod.Lex.left _ _ hlt

end

theorem fails_readMoreParams (c : Change) {bound bound' : Nat} {done : List String}
    {ts : List Token} {stuck : Stuck} {hle : ts.length ≤ bound}
    (h : (readMoreParams done ts hle).Fails stuck) (sees : c.Sees stuck.rest)
    (hle' : (c.apply ts).length ≤ bound') :
    (readMoreParams done (c.apply ts) hle').Fails (c.stuck stuck) := by
  have seesWhole := (readMoreParams_viable h).sees sees
  rcases readMoreParams_fails.mp h with h | ⟨name, mid, hname, ⟨hmem, rfl⟩ |
    ⟨hnew, ⟨hnot, hmiss⟩ | ⟨comma, us, rfl, hc, _, hmore⟩⟩⟩
  · exact readMoreParams_fails.mpr (.inl (fails_readIdentifier c h sees))
  · exact readMoreParams_fails.mpr (.inr ⟨_, _, yields_readIdentifier c hname seesWhole,
      .inl ⟨hmem, rfl⟩⟩)
  · have seesMid : c.Sees mid := hmiss.rest ▸ sees
    exact readMoreParams_fails.mpr (.inr ⟨_, _, yields_readIdentifier c hname seesWhole,
      .inr ⟨hnew, .inl ⟨mt (seesMid.leads _).mp hnot, sees.misses hmiss⟩⟩⟩)
  · have hlt := Nat.lt_of_succ_lt hname.shorter
    have seesMore := (readMoreParams_viable hmore).sees sees
    have param := yields_readIdentifier c hname seesWhole
    have front := seesMore.apply_front comma
    have hus := (Nat.le_of_lt (Nat.lt_of_succ_lt (front ▸ param.shorter))).trans hle'
    exact readMoreParams_fails.mpr (.inr ⟨_, _, param, .inr ⟨hnew,
      .inr ⟨_, _, front, hc, hus, fails_readMoreParams c hmore sees hus⟩⟩⟩)
termination_by ts.length
decreasing_by
  exact hlt

theorem fails_readFunction (c : Change) {ts : List Token} {stuck : Stuck}
    (h : (readFunction ts).Fails stuck) (sees : c.Sees stuck.rest) :
    (readFunction (c.apply ts)).Fails (c.stuck stuck) := by
  have seesWhole := (readFunction_viable h).sees sees
  refine readFunction_fails.mpr ?_
  rcases readFunction_fails.mp h with hname | ⟨name, us, hname, hmiss | ⟨l, vs, rfl, hl, hparams |
    ⟨params, mid, hparams, hmiss | ⟨o, ws, rfl, ho, hbody⟩⟩⟩⟩
  · exact .inl (fails_readIdentifier c hname sees)
  · exact .inr ⟨_, _, yields_readIdentifier c hname seesWhole, .inl (sees.misses hmiss)⟩
  · obtain ⟨hnot, hmore⟩ := readParams_fails.mp hparams
    have seesParams := (readMoreParams_viable hmore).sees sees
    have stops := readParams_fails.mpr
      ⟨mt (seesParams.leads _).mp hnot, fails_readMoreParams c hmore sees (Nat.le_refl _)⟩
    exact .inr ⟨_, _, yields_readIdentifier c hname seesWhole,
      .inr ⟨_, _, seesParams.apply_front l, hl, .inl stops⟩⟩
  · have seesMid : c.Sees mid := hmiss.rest ▸ sees
    have seesParams := seesMid.before hparams
    exact .inr ⟨_, _, yields_readIdentifier c hname seesWhole,
      .inr ⟨_, _, seesParams.apply_front l, hl,
        .inr ⟨_, _, yields_readParams c hparams seesMid, .inl (sees.misses hmiss)⟩⟩⟩
  · have seesBody := (readBlock_viable .empty hbody).sees sees
    have seesParams := (seesBody.cons o).before hparams
    exact .inr ⟨_, _, yields_readIdentifier c hname seesWhole,
      .inr ⟨_, _, seesParams.apply_front l, hl,
        .inr ⟨_, _, yields_readParams c hparams (seesBody.cons o),
          .inr ⟨_, _, seesBody.apply_front o, ho, fails_readBlock c hbody sees (Nat.le_refl _)⟩⟩⟩⟩

end Fails

/-! ## 4. Programs -/

/-- Where reading a program stops, it stops alike. -/
theorem Change.halt_readFunctions (c : Change) {done : List Function} (done' : List Function)
    {ts start : List Token} {stuck : Stuck} (h : (readFunctions done ts).halt = some (start, stuck))
    (sees : c.Sees stuck.rest) :
    (readFunctions done' (c.apply ts)).halt = some (c.apply start, c.stuck stuck) := by
  have seesWhole := (readFunctions_viable h).sees sees
  rw [readFunctions] at h ⊢
  rw [seesWhole.atEnd_apply]
  split at h
  · cases h
  · next hend =>
    rw [if_neg hend]
    split at h
    · next heq =>
      cases h
      rw [fails_readFunction c heq sees]
    · next f rest hlt heq =>
      have hshorter : rest.length < ts.length := hlt
      have seesRest := (readFunctions_viable h).sees sees
      obtain ⟨_, first⟩ := yields_readFunction c ⟨hlt, heq⟩ seesRest
      rw [first]
      exact c.halt_readFunctions _ h sees
termination_by ts.length
decreasing_by
  exact hshorter

end Surface

end StackCompiler
