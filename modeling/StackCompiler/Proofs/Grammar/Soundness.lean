import Mathlib.Data.List.Nodup
import StackCompiler.Proofs.Grammar.Phrases

/-!
# What is read is derivable

Every tree that a reader yields is denoted by the tokens that the reader used up, once its
variables are bound to the slots of a frame (`readExpr_sound`, `readStmt_sound`). The reader meets
the variables in the order in which they stand in the tokens, and it attaches every `else` to the
nearest open `if`.
-/

namespace StackCompiler

namespace Surface

open Grammar

variable (frame : Frame)

/-! ## 1. Variables in front -/

theorem variableNames_of_not_ident {t : Token} {ts : List Token} (h : t.kind ≠ .ident) :
    variableNames (t :: ts) = variableNames ts := by
  rw [variableNames, if_neg fun h' => h h'.1]

theorem variableNames_punctuator {t : Token} {s : String} {ts : List Token}
    (h : t.isPunctuator s) : variableNames (t :: ts) = variableNames ts :=
  variableNames_of_not_ident fun hk => by
    rw [(Token.isPunctuator_iff.mp h).1] at hk
    cases hk

theorem variableNames_keyword {t : Token} {s : String} {ts : List Token}
    (h : t.isKeyword s) : variableNames (t :: ts) = variableNames ts :=
  variableNames_of_not_ident fun hk => by
    rw [(Token.isKeyword_iff.mp h).1] at hk
    cases hk

theorem variableNames_called {t : Token} {ts : List Token} (h : Leads "(" ts) :
    variableNames (t :: ts) = variableNames ts := by
  rw [variableNames, if_neg fun h' => h'.2 h]

theorem variableNames_variable {t : Token} {name : String} {ts : List Token}
    (hk : t.kind = .ident) (ht : t.text = some name) (h : ¬ Leads "(" ts) :
    variableNames (t :: ts) = name :: variableNames ts := by
  rw [variableNames, if_pos ⟨hk, h⟩, ht]
  rfl

/-! ## 2. Expressions -/

/-- Binding to slots turns an operator into the tree that the grammar makes of it. -/
theorem Op.infix_apply (op : Op) (a b : StackCompiler.Expr) :
    Infix op.level op.spelling a b (op.apply a b) := by
  cases op <;> constructor

/-- The tokens `ts` are a phrase with the variables `names` in front of `rest`. -/
def Reads (phrase : List Token → Prop) (names : List String) (ts rest : List Token) : Prop :=
  ∃ used, ts = used ++ rest ∧ phrase used ∧ variableNames ts = names ++ variableNames rest

mutual

theorem readExpr_sound {ts rest : List Token} {e : Expr} (h : (readExpr ts).Yields e rest) :
    Reads (Assignment frame.offset · (e.resolve frame)) e.variables ts rest := by
  obtain ⟨a, mid, ha, h⟩ := readExpr_yields.mp h
  have hlt := ha.shorter
  obtain ⟨used, hts, hlevel, hnames⟩ := readLevel_sound ha
  rcases h with ⟨-, rfl, rfl⟩ | ⟨eq, us, rfl, heq, b, hb, rfl⟩
  · exact ⟨used, hts, .plain hlevel, hnames⟩
  · have := List.length_cons ▸ hlt
    obtain ⟨used', rfl, hlevel', hnames'⟩ := readLevel_sound hb
    obtain ⟨first, used, rfl, -⟩ := hlevel.starts
    subst hts
    refine ⟨first :: used ++ eq :: used', by simp, .store hlevel heq hlevel', ?_⟩
    rw [hnames, variableNames_punctuator heq, hnames', Expr.variables, List.append_assoc]
termination_by (ts.length, maxLevel + 2)
decreasing_by
  · exact Prod.Lex.right _ (by omega)
  · exact Prod.Lex.left _ _ (by omega)

theorem readLevel_sound {n : Nat} {ts rest : List Token} {e : Expr}
    (h : (readLevel n ts).Yields e rest) :
    Reads (Level frame.offset n · (e.resolve frame)) e.variables ts rest := by
  match n with
  | 0 =>
    rcases readLevel_zero_yields.mp h with
      ⟨-, ⟨-, h⟩ | ⟨t, us, rfl, ht, a, ha, rfl⟩⟩ | ⟨t, us, rfl, ht, a, ha, rfl⟩
    · obtain ⟨used, hts, hprimary, hnames⟩ := readPrimary_sound h
      exact ⟨used, hts, .primary hprimary, hnames⟩
    · obtain ⟨used, rfl, hlevel, hnames⟩ := readLevel_sound ha
      exact ⟨t :: used, rfl, .minus ht hlevel, by rw [variableNames_punctuator ht, hnames]; rfl⟩
    · obtain ⟨used, rfl, hlevel, hnames⟩ := readLevel_sound ha
      exact ⟨t :: used, rfl, .plus ht hlevel, by rw [variableNames_punctuator ht, hnames]⟩
  | n + 1 =>
    obtain ⟨a, mid, ha, hlt, hchain⟩ := readLevel_succ_yields.mp h
    obtain ⟨used, rfl, hlevel, hnames⟩ := readLevel_sound ha
    obtain ⟨used', rfl, hgrow, names, hvars, hnames'⟩ := readChain_sound hchain
    refine ⟨used ++ used', by simp, hgrow used (.tighter hlevel), ?_⟩
    rw [hnames, hnames', hvars, List.append_assoc]
termination_by (ts.length, n + 1)
decreasing_by
  · exact Prod.Lex.right _ (by omega)
  · exact Prod.Lex.left _ _ (by subst_vars; simp only [List.length_cons]; omega)
  · exact Prod.Lex.left _ _ (by subst_vars; simp only [List.length_cons]; omega)
  · exact Prod.Lex.right _ (by omega)
  · exact Prod.Lex.left _ _ (by omega)

/-- The rest of a chain makes any phrase for the chain so far longer. -/
theorem readChain_sound {n bound : Nat} {a e : Expr} {ts rest : List Token}
    {h : ts.length < bound} (hchain : (readChain n a ts h).Yields e rest) :
    ∃ used, ts = used ++ rest ∧
      (∀ before, Level frame.offset (n + 1) before (a.resolve frame) →
        Level frame.offset (n + 1) (before ++ used) (e.resolve frame)) ∧
      ∃ names, e.variables = a.variables ++ names ∧
        variableNames ts = names ++ variableNames rest := by
  rcases readChain_yields.mp hchain with
    ⟨-, rfl, rfl⟩ | ⟨op, t, us, rfl, ht, hlevel, b, mid, hb, _, hmore⟩
  · exact ⟨[], rfl, fun before h => by rwa [List.append_nil], [], by rw [List.append_nil], rfl⟩
  · have hlt := hb.shorter
    obtain ⟨used, rfl, hright, hnames⟩ := readLevel_sound hb
    obtain ⟨used', rfl, hgrow, names, hvars, hnames'⟩ := readChain_sound hmore
    refine ⟨t :: used ++ used', by simp, fun before hleft => ?_, b.variables ++ names, ?_, ?_⟩
    · have hop := hlevel ▸ op.infix_apply (a.resolve frame) (b.resolve frame)
      have hboth := hgrow _ (.operator hleft ht hright hop)
      rwa [List.append_assoc, List.cons_append] at hboth
    · rw [hvars, Expr.variables, List.append_assoc]
    · rw [variableNames_punctuator ht, hnames, hnames', List.append_assoc]
termination_by (ts.length, 0)
decreasing_by
  · exact Prod.Lex.left _ _ (by subst_vars; simp only [List.length_cons]; omega)
  · exact Prod.Lex.left _ _ (by subst_vars; simp only [List.length_cons]; omega)

theorem readPrimary_sound {ts rest : List Token} {e : Expr}
    (h : (readPrimary ts).Yields e rest) :
    Reads (Primary frame.offset · (e.resolve frame)) e.variables ts rest := by
  rcases readPrimary_yields.mp h with
    ⟨-, t, us, rfl, ⟨name, hk, ht, ⟨hnot, rfl, rfl⟩ | ⟨l, vs, rfl, hl, args, hargs, rfl⟩⟩ |
      ⟨value, hk, rfl, rfl⟩⟩ |
    ⟨l, us, rfl, hl, a, mid, ha, r, rfl, hr, rfl⟩
  · exact ⟨[t], rfl, .var hk ht, variableNames_variable hk ht hnot⟩
  · obtain ⟨used, r, rfl, hr, hphrase, hnames⟩ := readArgs_sound hargs
    have hnames : variableNames (t :: l :: (used ++ r :: rest)) =
        variablesOfArgs args ++ variableNames rest := by
      rw [variableNames_called (leads_cons.mpr hl), variableNames_punctuator hl, hnames]
    rcases hphrase with ⟨rfl, rfl⟩ | hphrase
    · exact ⟨[t, l, r], rfl, .callBare hk ht hl hr, hnames⟩
    · exact ⟨t :: l :: (used ++ [r]), by simp, .call hk ht hl hphrase hr, hnames⟩
  · refine ⟨[t], rfl, .num hk, variableNames_of_not_ident fun h => ?_⟩
    rw [hk] at h
    cases h
  · obtain ⟨used, rfl, hphrase, hnames⟩ := readExpr_sound ha
    refine ⟨l :: (used ++ [r]), by simp, .parens hl hphrase hr, ?_⟩
    rw [variableNames_punctuator hl, hnames, variableNames_punctuator hr]
termination_by (ts.length, 0)
decreasing_by
  · exact Prod.Lex.left _ _ (by subst_vars; simp only [List.length_cons]; omega)
  · exact Prod.Lex.left _ _ (by subst_vars; simp only [List.length_cons]; omega)

theorem readArgs_sound {ts rest : List Token} {es : List Expr}
    (h : (readArgs ts).Yields es rest) :
    ∃ used r, ts = used ++ r :: rest ∧ r.isPunctuator ")" ∧
      (used = [] ∧ es = [] ∨ Arguments frame.offset used (resolveArgs frame es)) ∧
      variableNames ts = variablesOfArgs es ++ variableNames rest := by
  rcases readArgs_yields.mp h with ⟨-, h⟩ | ⟨r, us, rfl, hr, rfl, rfl⟩
  · obtain ⟨args, used, r, rfl, hts, hr, hphrase, hnames⟩ := readMoreArgs_sound h
    exact ⟨used, r, hts, hr, .inr hphrase, hnames⟩
  · exact ⟨[], r, rfl, hr, .inl ⟨rfl, rfl⟩, variableNames_punctuator hr⟩
termination_by (ts.length, maxLevel + 4)
decreasing_by
  · exact Prod.Lex.right _ (by omega)

theorem readMoreArgs_sound {bound : Nat} {done es : List Expr} {ts rest : List Token}
    {hle : ts.length ≤ bound} (h : (readMoreArgs done ts hle).Yields es rest) :
    ∃ args used r, es = done.reverse ++ args ∧ ts = used ++ r :: rest ∧ r.isPunctuator ")" ∧
      Arguments frame.offset used (resolveArgs frame args) ∧
      variableNames ts = variablesOfArgs args ++ variableNames rest := by
  obtain ⟨a, mid, ha, h⟩ := readMoreArgs_yields.mp h
  have hlt := ha.shorter
  obtain ⟨used, hts, hphrase, hnames⟩ := readExpr_sound ha
  rcases h with ⟨-, r, rfl, hr, rfl⟩ | ⟨c, us, rfl, hc, _, h⟩
  · refine ⟨[a], used, r, by simp, hts, hr, .last hphrase, ?_⟩
    rw [hnames, variableNames_punctuator hr, variablesOfArgs, variablesOfArgs, List.append_nil]
  · have := List.length_cons ▸ hlt
    obtain ⟨args, used', r, rfl, rfl, hr, hphrase', hnames'⟩ := readMoreArgs_sound h
    refine ⟨a :: args, used ++ c :: used', r, by simp, by simp [hts], hr,
      .more hphrase hc hphrase', ?_⟩
    rw [hnames, variableNames_punctuator hc, hnames', variablesOfArgs, List.append_assoc]
termination_by (ts.length, maxLevel + 3)
decreasing_by
  · exact Prod.Lex.right _ (by omega)
  · exact Prod.Lex.left _ _ (by omega)

end

/-! ## 3. Statements -/

theorem readClause_sound {ending : String} {clause : Option Expr} {ts rest : List Token}
    (h : (readClause ending ts).Yields clause rest) :
    ∃ used z, ts = used ++ z :: rest ∧ z.isPunctuator ending ∧
      Clause frame.offset used (clause.map (Expr.resolve frame)) ∧
      variableNames ts = variablesOfClause clause ++ variableNames rest := by
  rcases readClause_yields.mp h with
    ⟨-, a, mid, ha, z, rfl, hz, rfl⟩ | ⟨z, us, rfl, hz, rfl, rfl⟩
  · obtain ⟨used, rfl, hphrase, hnames⟩ := readExpr_sound frame ha
    exact ⟨used, z, rfl, hz, .present hphrase, by rw [hnames, variableNames_punctuator hz]; rfl⟩
  · exact ⟨[], z, rfl, hz, .absent, variableNames_punctuator hz⟩

mutual

/-- What is read as a statement is a statement. If it ends in an open `if`, then no `else` comes
behind it. -/
theorem readStmt_sound {ts rest : List Token} {s : Stmt} (h : (readStmt ts).Yields s rest) :
    Reads (Statement frame.offset · (s.resolve frame)) s.variables ts rest ∧
      (s.resolve frame).ElsesNearest ∧
      ((s.resolve frame).EndsOpen → ¬ LeadsKeyword "else" rest) := by
  rcases readStmt_yields.mp h with
    ⟨-, ⟨-, ⟨-, ⟨-, a, mid, ha, z, rfl, hz, rfl⟩ |
      ⟨l, us, rfl, hl, body, hbody, rfl⟩⟩ |
      ⟨k, us, rfl, hk, l, vs, rfl, hl, start, mid, hstart, test, mid', htest, next, mid'', hnext,
        body, hbody, rfl⟩⟩ |
      ⟨k, us, rfl, hk, l, vs, rfl, hl, test, mid, ha, r, ws, rfl, hr, yes, mid', hyes, hend⟩⟩ |
    ⟨k, us, rfl, hk, a, mid, ha, z, rfl, hz, rfl⟩
  -- An expression.
  · obtain ⟨used, rfl, hphrase, hnames⟩ := readExpr_sound frame ha
    refine ⟨⟨used ++ [z], by simp, .expr hphrase hz, ?_⟩, trivial, False.elim⟩
    rw [hnames, variableNames_punctuator hz, Stmt.variables]
  -- A block.
  · obtain ⟨_, used, r, rfl, rfl, hr, hphrase, hnearest, hnames⟩ := readBlock_sound hbody
    refine ⟨⟨l :: (used ++ [r]), by simp, .block hl hphrase hr, ?_⟩, hnearest, False.elim⟩
    rw [variableNames_punctuator hl, hnames]
    rfl
  -- A loop.
  · have hlt : mid''.length < (k :: l :: vs).length := by
      have := hstart.shorter
      have := htest.shorter
      have := hnext.shorter
      simp only [List.length_cons]
      omega
    obtain ⟨used, y, rfl, hy, hphrase, hnames⟩ := readClause_sound frame hstart
    obtain ⟨used', z, rfl, hz, hphrase', hnames'⟩ := readClause_sound frame htest
    obtain ⟨used'', r, rfl, hr, hphrase'', hnames''⟩ := readClause_sound frame hnext
    obtain ⟨⟨last, rfl, hlast, hlastNames⟩, hnearest, hopen⟩ := readStmt_sound hbody
    refine ⟨⟨_, ?_, .loop hk hl hphrase hy hphrase' hz hphrase'' hr hlast, ?_⟩, hnearest, hopen⟩
    · simp
    · rw [variableNames_keyword hk, variableNames_punctuator hl, hnames, hnames', hnames'',
        hlastNames]
      simp only [Stmt.variables, List.append_assoc]
  -- A conditional. The `else` behind it, if one comes, is read with it.
  · have hws : ws.length < (k :: l :: vs).length := by
      have := List.length_cons ▸ ha.shorter
      simp only [List.length_cons]
      omega
    have hmid := hyes.shorter
    obtain ⟨used, rfl, hphrase, hnames⟩ := readExpr_sound frame ha
    obtain ⟨⟨inner, hinner, hthen, hthenNames⟩, hnearest, hopen⟩ := readStmt_sound hyes
    rcases hend with ⟨hnot, rfl, rfl⟩ | ⟨o, xs, rfl, ho, no, hno, rfl⟩
    · subst hinner
      refine ⟨⟨_, ?_, .cond hk hl hphrase hr hthen, ?_⟩, hnearest, fun _ => hnot⟩
      · simp
      · rw [variableNames_keyword hk, variableNames_punctuator hl, hnames,
          variableNames_punctuator hr, hthenNames]
        simp only [Stmt.variables, List.append_assoc]
    · have hxs : xs.length < ws.length := by
        have := List.length_cons ▸ hmid
        omega
      obtain ⟨⟨final, rfl, helse, helseNames⟩, hnearest', hopen'⟩ := readStmt_sound hno
      subst hinner
      have hclosed : ¬ (yes.resolve frame).EndsOpen :=
        fun h => hopen h (leadsKeyword_cons.mpr ho)
      refine ⟨⟨_, ?_, .condElse hk hl hphrase hr hthen ho helse, ?_⟩,
        ⟨hclosed, hnearest, hnearest'⟩, hopen'⟩
      · simp
      · rw [variableNames_keyword hk, variableNames_punctuator hl, hnames,
          variableNames_punctuator hr, hthenNames, variableNames_keyword ho, helseNames]
        simp only [Stmt.variables, List.append_assoc]
  -- A return.
  · obtain ⟨used, rfl, hphrase, hnames⟩ := readExpr_sound frame ha
    refine ⟨⟨k :: (used ++ [z]), by simp, .ret hk hphrase hz, ?_⟩, trivial, False.elim⟩
    rw [variableNames_keyword hk, hnames, variableNames_punctuator hz, Stmt.variables]
termination_by (ts.length, 0)
decreasing_by
  · exact Prod.Lex.left _ _ (by subst_vars; simp only [List.length_cons]; omega)
  · exact Prod.Lex.left _ _ (by subst_vars; exact hlt)
  · exact Prod.Lex.left _ _ (by subst_vars; exact hws)
  · exact Prod.Lex.left _ _ (by subst_vars; omega)

theorem readBlock_sound {bound : Nat} {done body : List Stmt} {ts rest : List Token}
    {hle : ts.length ≤ bound} (h : (readBlock done ts hle).Yields body rest) :
    ∃ tail used r, body = done.reverse ++ tail ∧ ts = used ++ r :: rest ∧ r.isPunctuator "\x7d" ∧
      Statements frame.offset used (resolveBlock frame tail) ∧
      ElsesNearestIn (resolveBlock frame tail) ∧
      variableNames ts = variablesOfBlock tail ++ variableNames rest := by
  rcases readBlock_yields.mp h with ⟨-, -, s, mid, hs, _, h⟩ | ⟨r, us, rfl, hr, rfl, rfl⟩
  · have hlt := hs.shorter
    obtain ⟨⟨used, hts, hphrase, hnames⟩, hnearest, -⟩ := readStmt_sound hs
    obtain ⟨tail, used', r, rfl, rfl, hr, hphrase', hnearest', hnames'⟩ := readBlock_sound h
    refine ⟨s :: tail, used ++ used', r, by simp, by simp [hts], hr, .cons hphrase hphrase',
      ⟨hnearest, hnearest'⟩, ?_⟩
    rw [hnames, hnames', variablesOfBlock, List.append_assoc]
  · exact ⟨[], [], r, by simp, rfl, hr, .nil, trivial, variableNames_punctuator hr⟩
termination_by (ts.length, 1)
decreasing_by
  · exact Prod.Lex.right _ (by omega)
  · exact Prod.Lex.left _ _ (by omega)

end

/-! ## 4. Functions and programs -/

theorem readMoreParams_sound {bound : Nat} {done names : List String} {ts rest : List Token}
    {hle : ts.length ≤ bound} (h : (readMoreParams done ts hle).Yields names rest)
    (hdone : done.Nodup) :
    ∃ tail used r, names = done.reverse ++ tail ∧ ts = used ++ r :: rest ∧ r.isPunctuator ")" ∧
      Parameters used tail ∧ names.Nodup := by
  obtain ⟨name, mid, hname, hnew, hend⟩ := readMoreParams_yields.mp h
  have hdone : (name :: done).Nodup := List.nodup_cons.mpr ⟨hnew, hdone⟩
  obtain ⟨t, rfl, hk, ht⟩ := readIdentifier_yields.mp hname
  rcases hend with ⟨-, r, rfl, hr, rfl⟩ | ⟨c, us, rfl, hc, _, hmore⟩
  · exact ⟨[name], [t], r, by simp, rfl, hr, .last hk ht, List.nodup_reverse.mpr hdone⟩
  · obtain ⟨tail, used, r, rfl, rfl, hr, hphrase, hnodup⟩ := readMoreParams_sound hmore hdone
    exact ⟨name :: tail, t :: c :: used, r, by simp, rfl, hr, .more hk ht hc hphrase, hnodup⟩
termination_by ts.length
decreasing_by
  subst_vars
  simp only [List.length_cons]
  omega

theorem readParams_sound {names : List String} {ts rest : List Token}
    (h : (readParams ts).Yields names rest) :
    ∃ used r, ts = used ++ r :: rest ∧ r.isPunctuator ")" ∧ OptParameters used names ∧
      names.Nodup := by
  rcases readParams_yields.mp h with ⟨-, h⟩ | ⟨r, us, rfl, hr, rfl, rfl⟩
  · obtain ⟨names, used, r, rfl, rfl, hr, hphrase, hnodup⟩ :=
      readMoreParams_sound h List.nodup_nil
    exact ⟨used, r, rfl, hr, .present hphrase, hnodup⟩
  · exact ⟨[], r, rfl, hr, .absent, List.nodup_nil⟩

/-- The variables in front of a punctuator and those behind it. -/
theorem variableNames_append {r : Token} {s : String} {ts us : List Token}
    (hr : r.isPunctuator s) (hs : s ≠ "(") :
    variableNames (ts ++ r :: us) = variableNames ts ++ variableNames us := by
  induction ts with
  | nil => exact variableNames_punctuator hr
  | cons t ts ih =>
    have hleads : Leads "(" (ts ++ r :: us) ↔ Leads "(" ts := by
      cases ts with
      | nil =>
        rw [List.nil_append, leads_cons]
        refine ⟨fun h => absurd (Token.spelling_eq hr h) hs, ?_⟩
        exact fun h => absurd h not_leads_nil
      | cons t ts => rw [List.cons_append, leads_cons, leads_cons]
    rw [List.cons_append, variableNames, variableNames, ih]
    simp only [hleads]
    split
    · rw [List.append_assoc]
    · rfl

/-- What is read as a function is a function, with distinct parameters. -/
theorem readFunction_sound {f : Function} {ts rest : List Token}
    (h : (readFunction ts).Yields f rest) :
    ∃ used, ts = used ++ rest ∧ Definition used f.resolve ∧ f.resolve.ElsesNearest ∧
      f.resolve.ParamsDistinct := by
  obtain ⟨name, us, hname, l, vs, rfl, hl, params, mid, hparams, o, ws, rfl, ho, body, hbody,
    rfl⟩ := readFunction_yields.mp h
  obtain ⟨t, rfl, hk, ht⟩ := readIdentifier_yields.mp hname
  obtain ⟨ps, r, rfl, hr, hphrase, hnodup⟩ := readParams_sound hparams
  let f : Function := ⟨name, t.loc, params, body⟩
  obtain ⟨_, used, c, rfl, rfl, hc, hbodyPhrase, hnearest, hnames⟩ :=
    readBlock_sound f.frame hbody
  -- The walk over the trees meets the variables in the order of the tokens.
  have hvars : variablesOfBlock f.body = variableNames used := by
    rw [variableNames_append hc (by decide)] at hnames
    exact (List.append_cancel_right hnames).symm
  have hframe : f.frame = Frame.ofNames (params ++ variableNames used) := by
    rw [← hvars]
    rfl
  refine ⟨t :: l :: (ps ++ r :: o :: (used ++ [c])), by simp,
    .intro hk ht hl hphrase hr ho hbodyPhrase hc hframe, hnearest, ?_⟩
  have hparams : f.resolve.params.map Slot.name = params := map_name_slots f.frame params
  change (f.resolve.params.map Slot.name).Nodup
  rw [hparams]
  exact hnodup

/-- Reading that is not stuck has used up everything but an end marker and what follows it. -/
theorem readFunctions_sound {done : List Function} {ts : List Token}
    (h : (readFunctions done ts).halt = none) :
    ∃ tail used rest, (readFunctions done ts).functions = done.reverse ++ tail ∧
      ts = used ++ rest ∧ atEnd rest ∧ Grammar.Program used (tail.map Function.resolve) ∧
      (∀ f ∈ tail.map Function.resolve, f.ElsesNearest) ∧
      ∀ f ∈ tail.map Function.resolve, f.ParamsDistinct := by
  rw [readFunctions] at h ⊢
  split at h
  · next hend =>
    rw [if_pos hend]
    exact ⟨[], [], ts, by simp, rfl, hend, .nil, List.forall_mem_nil _, List.forall_mem_nil _⟩
  · next hend =>
    rw [if_neg hend]
    split at h
    · cases h
    · next f rest hlt heq =>
      have hshorter : rest.length < ts.length := hlt
      obtain ⟨used, hts, hphrase, hnearest, hdistinct⟩ := readFunction_sound ⟨hlt, heq⟩
      obtain ⟨tail, used', rest, hfunctions, rfl, hrest, hprogram, hnearests, hdistincts⟩ :=
        readFunctions_sound h
      refine ⟨f :: tail, used ++ used', rest, by simp [hfunctions], by simp [hts], hrest,
        .cons hphrase hprogram, ?_, ?_⟩
      · exact List.forall_mem_cons.mpr ⟨hnearest, hnearests⟩
      · exact List.forall_mem_cons.mpr ⟨hdistinct, hdistincts⟩
termination_by ts.length
decreasing_by
  exact hshorter

end Surface

end StackCompiler
