import StackCompiler.Proofs.Exchange
import StackCompiler.Proofs.Joining

/-!
# Comparisons turned around

"Greater than" is "less than" with the sides exchanged. So `a > b` denotes what `(b) < (a)`
denotes, and `a >= b` what `(b) <= (a)` denotes. The parentheses make primaries of the sides,
whatever stands in them.

The main statements are these.
* What a comparison and its sides denote (`Grammar.Mirror.turned`).
* Every `>` and every `>=` in a program is the sign of a comparison in one of its functions
  (`Grammar.Program.compares`).
-/

namespace StackCompiler

/-- A token that compares its left side for being greater than its right side. -/
def Token.IsGreater (t : Token) : Prop :=
  t.isPunctuator ">" ∨ t.isPunctuator ">="

namespace Grammar

/-- `Mirror s s' op`: the comparisons `a s b` and `b s' a` are one, and `op` compares `b` with
`a`. -/
inductive Mirror : String → String → Op → Prop
  | gt : Mirror ">" "<" .lt
  | ge : Mirror ">=" "<=" .le

/-! ## 1. Turning a comparison around -/

section Turned

variable {slot : String → Nat} {s s' : String} {op : Op} {ls rs : List Token} {a b : Expr}

theorem Mirror.infix_turned (h : Mirror s s' op) (a b : Expr) :
    Infix 3 s' b a (.binary op b a) := by
  cases h with
  | gt => exact .lt b a
  | ge => exact .le b a

theorem Mirror.ne_paren (h : Mirror s s' op) : s ≠ "(" := by
  cases h with
  | gt => decide
  | ge => decide

theorem Mirror.mem (h : Mirror s s' op) : s' ∈ ["<", "<="] := by
  cases h with
  | gt => decide
  | ge => decide

/-- The punctuators of a comparison with the sign `s'` and with parentheses around its sides. -/
structure Brackets (s' : String) where
  l : Token
  r : Token
  sign : Token
  l' : Token
  r' : Token
  hl : l.isPunctuator "("
  hr : r.isPunctuator ")"
  hsign : sign.isPunctuator s'
  hl' : l'.isPunctuator "("
  hr' : r'.isPunctuator ")"

/-- The tokens of a comparison of `ls` with `rs` if it is turned around. -/
def Brackets.turned (w : Brackets s') (ls rs : List Token) : List Token :=
  w.l :: (rs ++ [w.r]) ++ w.sign :: w.l' :: (ls ++ [w.r'])

/-- A comparison turned around denotes the same as before. -/
theorem Mirror.turned (h : Mirror s s' op) (ha : Level slot 3 ls a) (hb : Level slot 2 rs b)
    (w : Brackets s') : Level slot 3 (w.turned ls rs) (.binary op b a) := by
  have first : Level slot 3 (w.l :: (rs ++ [w.r])) b :=
    .tighter (.tighter (.tighter (.primary (.parens w.hl (.plain (.tighter (.tighter hb))) w.hr))))
  have second : Level slot 2 (w.l' :: (ls ++ [w.r'])) a :=
    .tighter (.tighter (.primary (.parens w.hl' (.plain (.tighter ha)) w.hr')))
  exact .operator first w.hsign second (h.infix_turned a b)

/-- It can take the place of the comparison whatever the slots are. -/
theorem Mirror.rederives (h : Mirror s s' op) (ha : Level slot 3 ls a) (hb : Level slot 2 rs b)
    (w : Brackets s') (slot' : String → Nat) :
    (Phrase.level 3 (.binary op b a)).Rederives slot' (w.turned ls rs) :=
  ⟨_, h.turned (ha.rebind slot') (hb.rebind slot') w, rfl⟩

/-- The variables of the right side come first now. -/
theorem Brackets.variableNames_turned (w : Brackets s') (ls rs : List Token) :
    variableNames (w.turned ls rs) = variableNames rs ++ variableNames ls := by
  have paren : ")" ≠ "(" := by decide
  rw [turned, List.cons_append, Surface.variableNames_punctuator w.hl, List.append_assoc,
    List.singleton_append, Surface.variableNames_append w.hr paren,
    Surface.variableNames_punctuator w.hsign, Surface.variableNames_punctuator w.hl',
    Surface.variableNames_append w.hr' paren, variableNames, List.append_nil]

end Turned

/-! ## 2. Where comparisons are -/

/-- `Compares slot t q ts`: the token `t` is the sign of a comparison inside the phrase `q`, whose
tokens are `ts`. The left side of the comparison is of its own level, and the right side is one
level tighter. -/
inductive Compares (slot : String → Nat) (t : Token) (q : Phrase) : List Token → Prop
  | intro {bs ls rs as : List Token} {a b : Expr} {s s' : String} {op : Op} :
      Within slot (.level 3 (.binary op b a)) q bs as → Level slot 3 ls a → t.isPunctuator s →
      Mirror s s' op → Level slot 2 rs b → Compares slot t q (bs ++ (ls ++ t :: rs ++ as))

section Compares

variable {slot : String → Nat} {t : Token}

theorem Compares.step {q' q : Phrase} {ts vs ws : List Token} (h : Compares slot t q' ts)
    (part : Part slot q' q vs ws) : Compares slot t q (vs ++ (ts ++ ws)) := by
  cases h with
  | @intro bs ls rs as a b s s' op within ha ht mirror hb =>
    have whole := Compares.intro (within.inside part) ha ht mirror hb
    simpa using whole

theorem Compares.step_of_eq {q' q : Phrase} {ts vs ws us : List Token} (h : Compares slot t q' ts)
    (part : Part slot q' q vs ws) (same : vs ++ (ts ++ ws) = us) : Compares slot t q us :=
  same ▸ h.step part

end Compares

end Grammar

namespace Token.IsGreater

variable {t u : Token} {us : List Token}

theorem kind_eq (h : t.IsGreater) : t.kind = .punctuator :=
  h.elim (fun h => (isPunctuator_iff.mp h).1) fun h => (isPunctuator_iff.mp h).1

theorem mem_of_kind (h : t.IsGreater) (hu : u.kind ≠ .punctuator) (mem : t ∈ u :: us) : t ∈ us :=
  List.mem_of_ne_of_mem (by rintro rfl; exact hu h.kind_eq) mem

theorem mem_of_punctuator (h : t.IsGreater) {s : String} (hu : u.isPunctuator s)
    (other : s ≠ ">" ∧ s ≠ ">=") (mem : t ∈ u :: us) : t ∈ us := by
  refine List.mem_of_ne_of_mem ?_ mem
  rintro rfl
  have text := (isPunctuator_iff.mp hu).2
  rcases h with h | h
  · rw [(isPunctuator_iff.mp h).2] at text
    exact other.1 (Option.some.inj text).symm
  · rw [(isPunctuator_iff.mp h).2] at text
    exact other.2 (Option.some.inj text).symm

theorem mem_of_keyword (h : t.IsGreater) {s : String} (hu : u.isKeyword s) (mem : t ∈ u :: us) :
    t ∈ us :=
  h.mem_of_kind (by rw [(isKeyword_iff.mp hu).1]; exact nofun) mem

end Token.IsGreater

namespace Grammar

section Compares

variable {slot : String → Nat} {t : Token}

/-- An operator that is a sign of this kind compares. -/
theorem Infix.mirror {n : Nat} {s : String} {a b e : Expr} (h : Infix n s a b e)
    (greater : t.IsGreater) (ht : t.isPunctuator s) :
    n = 3 ∧ ∃ s' op, Mirror s s' op ∧ e = .binary op b a := by
  have text := (Token.isPunctuator_iff.mp ht).2
  have signs : s = ">" ∨ s = ">=" := by
    rcases greater with greater | greater
    · rw [(Token.isPunctuator_iff.mp greater).2] at text
      exact .inl (Option.some.inj text).symm
    · rw [(Token.isPunctuator_iff.mp greater).2] at text
      exact .inr (Option.some.inj text).symm
  cases h with
  | gt => exact ⟨rfl, _, _, .gt, rfl⟩
  | ge => exact ⟨rfl, _, _, .ge, rfl⟩
  | mul | div | add | sub | lt | le | eq | ne => exact absurd signs (by decide)

mutual

theorem Assignment.compares (greater : t.IsGreater) {ts : List Token} {e : Expr} :
    Assignment slot ts e → t ∈ ts → Compares slot t (.assignment e) ts
  | .plain h, mem => (h.compares greater mem).step_of_eq .plain (by simp)
  | @Assignment.store _ first eq ts us a b ha heq hb, mem => by
    rcases List.mem_append.mp mem with mem | mem
    · exact (ha.compares greater mem).step_of_eq (.target heq hb) (by simp)
    · have mem := greater.mem_of_punctuator heq (by decide) mem
      exact (hb.compares greater mem).step_of_eq (.value ha heq) (by simp)

theorem Level.compares (greater : t.IsGreater) {n : Nat} {ts : List Token} {e : Expr} :
    Level slot n ts e → t ∈ ts → Compares slot t (.level n e) ts
  | .primary h, mem => (h.compares greater mem).step_of_eq .primary (by simp)
  | .plus ht h, mem => by
    have mem := greater.mem_of_punctuator ht (by decide) mem
    exact (h.compares greater mem).step_of_eq (.plus ht) (by simp)
  | .minus ht h, mem => by
    have mem := greater.mem_of_punctuator ht (by decide) mem
    exact (h.compares greater mem).step_of_eq (.minus ht) (by simp)
  | .tighter h, mem => (h.compares greater mem).step_of_eq .tighter (by simp)
  | .operator ha ht hb hop, mem => by
    rcases List.mem_append.mp mem with mem | mem
    · exact (ha.compares greater mem).step_of_eq (.left ht hb hop) (by simp)
    · rcases List.mem_cons.mp mem with rfl | mem
      · obtain ⟨three, s', op, mirror, rfl⟩ := hop.mirror greater ht
        cases three
        have whole := Compares.intro .here ha ht mirror hb
        simpa using whole
      · exact (hb.compares greater mem).step_of_eq (.right ha ht hop) (by simp)

theorem Primary.compares (greater : t.IsGreater) {ts : List Token} {e : Expr} :
    Primary slot ts e → t ∈ ts → Compares slot t (.primary e) ts
  | .parens hl h hr, mem => by
    have mem := greater.mem_of_punctuator hl (by decide) mem
    rcases List.mem_append.mp mem with mem | mem
    · exact (h.compares greater mem).step_of_eq (.parens hl hr) (by simp)
    · exact absurd (greater.mem_of_punctuator hr (by decide) mem) List.not_mem_nil
  | .num hk, mem => by
    exact absurd (greater.mem_of_kind (by rw [hk]; exact nofun) mem) List.not_mem_nil
  | .var hk _, mem => by
    exact absurd (greater.mem_of_kind (by rw [hk]; exact nofun) mem) List.not_mem_nil
  | .call hk ht hl h hr, mem => by
    have mem := greater.mem_of_kind (by rw [hk]; exact nofun) mem
    have mem := greater.mem_of_punctuator hl (by decide) mem
    rcases List.mem_append.mp mem with mem | mem
    · exact (h.compares greater mem).step_of_eq (.call hk ht hl hr) (by simp)
    · exact absurd (greater.mem_of_punctuator hr (by decide) mem) List.not_mem_nil
  | .callBare hk _ hl hr, mem => by
    have mem := greater.mem_of_kind (by rw [hk]; exact nofun) mem
    have mem := greater.mem_of_punctuator hl (by decide) mem
    exact absurd (greater.mem_of_punctuator hr (by decide) mem) List.not_mem_nil

theorem Arguments.compares (greater : t.IsGreater) {ts : List Token} {es : List Expr} :
    Arguments slot ts es → t ∈ ts → Compares slot t (.arguments es) ts
  | .last h, mem => (h.compares greater mem).step_of_eq .lastArg (by simp)
  | .more h hc hs, mem => by
    rcases List.mem_append.mp mem with mem | mem
    · exact (h.compares greater mem).step_of_eq (.firstArg hc hs) (by simp)
    · have mem := greater.mem_of_punctuator hc (by decide) mem
      exact (hs.compares greater mem).step_of_eq (.otherArgs h hc) (by simp)

end

theorem Clause.compares (greater : t.IsGreater) {ts : List Token} {e : Option Expr}
    (h : Clause slot ts e) (mem : t ∈ ts) : Compares slot t (.clause e) ts := by
  cases h with
  | absent => cases mem
  | present h => exact (h.compares greater mem).step_of_eq .present (by simp)

mutual

theorem Statement.compares (greater : t.IsGreater) {ts : List Token} {s : Stmt} :
    Statement slot ts s → t ∈ ts → Compares slot t (.statement s) ts
  | .ret hk h hz, mem => by
    have mem := greater.mem_of_keyword hk mem
    rcases List.mem_append.mp mem with mem | mem
    · exact (h.compares greater mem).step_of_eq (.ret hk hz) (by simp)
    · exact absurd (greater.mem_of_punctuator hz (by decide) mem) List.not_mem_nil
  | .cond hk hl htest hr hyes, mem => by
    have mem := greater.mem_of_punctuator hl (by decide) (greater.mem_of_keyword hk mem)
    rcases List.mem_append.mp mem with mem | mem
    · exact (htest.compares greater mem).step_of_eq (.condTest hk hl hr hyes) (by simp)
    · have mem := greater.mem_of_punctuator hr (by decide) mem
      exact (hyes.compares greater mem).step_of_eq (.condYes hk hl htest hr) (by simp)
  | .condElse hk hl htest hr hyes ho hno, mem => by
    have mem := greater.mem_of_punctuator hl (by decide) (greater.mem_of_keyword hk mem)
    rcases List.mem_append.mp mem with mem | mem
    · exact (htest.compares greater mem).step_of_eq (.condElseTest hk hl hr hyes ho hno) (by simp)
    rcases List.mem_append.mp (greater.mem_of_punctuator hr (by decide) mem) with mem | mem
    · exact (hyes.compares greater mem).step_of_eq (.condElseYes hk hl htest hr ho hno) (by simp)
    · have mem := greater.mem_of_keyword ho mem
      exact (hno.compares greater mem).step_of_eq (.condElseNo hk hl htest hr hyes ho) (by simp)
  | .loop hk hl hstart hy htest hz hnext hr hbody, mem => by
    have mem := greater.mem_of_punctuator hl (by decide) (greater.mem_of_keyword hk mem)
    rcases List.mem_append.mp mem with mem | mem
    · exact (hstart.compares greater mem).step_of_eq
        (.loopStart hk hl hy htest hz hnext hr hbody) (by simp)
    rcases List.mem_append.mp (greater.mem_of_punctuator hy (by decide) mem) with mem | mem
    · exact (htest.compares greater mem).step_of_eq
        (.loopTest hk hl hstart hy hz hnext hr hbody) (by simp)
    rcases List.mem_append.mp (greater.mem_of_punctuator hz (by decide) mem) with mem | mem
    · exact (hnext.compares greater mem).step_of_eq
        (.loopNext hk hl hstart hy htest hz hr hbody) (by simp)
    · have mem := greater.mem_of_punctuator hr (by decide) mem
      exact (hbody.compares greater mem).step_of_eq
        (.loopBody hk hl hstart hy htest hz hnext hr) (by simp)
  | .block hl h hr, mem => by
    have mem := greater.mem_of_punctuator hl (by decide) mem
    rcases List.mem_append.mp mem with mem | mem
    · exact (h.compares greater mem).step_of_eq (.block hl hr) (by simp)
    · exact absurd (greater.mem_of_punctuator hr (by decide) mem) List.not_mem_nil
  | .expr h hz, mem => by
    rcases List.mem_append.mp mem with mem | mem
    · exact (h.compares greater mem).step_of_eq (.expr hz) (by simp)
    · exact absurd (greater.mem_of_punctuator hz (by decide) mem) List.not_mem_nil

theorem Statements.compares (greater : t.IsGreater) {ts : List Token} {body : List Stmt} :
    Statements slot ts body → t ∈ ts → Compares slot t (.statements body) ts
  | .nil, mem => by cases mem
  | .cons h hs, mem => by
    rcases List.mem_append.mp mem with mem | mem
    · exact (h.compares greater mem).step_of_eq (.first hs) (by simp)
    · exact (hs.compares greater mem).step_of_eq (.others h) (by simp)

end

/-- No parameter compares. -/
theorem OptParameters.not_mem (greater : t.IsGreater) {ts : List Token} {names : List String}
    (h : OptParameters ts names) : t ∉ ts := by
  cases h with
  | absent => exact List.not_mem_nil
  | present h =>
    induction h with
    | last hk _ =>
      exact fun mem => absurd (greater.mem_of_kind (by rw [hk]; exact nofun) mem) List.not_mem_nil
    | more hk _ hc _ ih =>
      intro mem
      have mem := greater.mem_of_kind (by rw [hk]; exact nofun) mem
      exact ih (greater.mem_of_punctuator hc (by decide) mem)

/-- `ComparesIn f bs ls t rs as s'`: in the function `f` the token `t` compares the left side `ls`
with the right side `rs`, and `s'` is its sign if it is turned around. The tokens `bs` of `f` stand
before the comparison, and `as` behind it. -/
inductive ComparesIn (f : Function) (bs ls : List Token) (t : Token) (rs as : List Token)
    (s' : String) : Prop
  | intro {a b : Expr} {s : String} {op : Op} :
      Around (ls ++ t :: rs) (.level 3 (.binary op b a)) f bs as → Level f.frame.offset 3 ls a →
      t.isPunctuator s → Mirror s s' op → Level f.frame.offset 2 rs b →
      ComparesIn f bs ls t rs as s'

/-- The comparison may be turned around. The frame of the function has the same names then, and it
is the same frame if no variable comes up first in the comparison. -/
theorem ComparesIn.exists_definition {f : Function} {bs ls rs as : List Token} {s' : String}
    (h : ComparesIn f bs ls t rs as s') (w : Brackets s') :
    ∃ f', Definition (bs ++ (w.turned ls rs ++ as)) f' ∧
      (f.rename id f'.frame).Alike f' ∧ f'.frame.names.Perm f.frame.names ∧
      ((∀ x ∈ variableNames (ls ++ t :: rs), x ∈ variableNames bs) → f'.frame = f.frame) := by
  cases h with
  | @intro a b s op around ha ht mirror hb =>
    obtain ⟨f', definition, alike⟩ := around.exists_definition (mirror.rederives ha hb w)
    have old : variableNames (ls ++ t :: rs) = variableNames ls ++ variableNames rs :=
      Surface.variableNames_append ht mirror.ne_paren
    have frame := around.frame_eq
    rw [around.variableNames_eq trivial, old] at frame
    rw [around.variableNames_eq trivial, w.variableNames_turned] at alike
    have frame' : f'.frame = Frame.ofNames (variableNames bs ++
        ((variableNames rs ++ variableNames ls) ++ variableNames as)) :=
      Function.Alike.frame_eq alike
    rw [← frame'] at alike
    refine ⟨f', definition, alike, ?_, fun known => ?_⟩
    · rw [frame', frame]
      refine Frame.perm_names_ofNames fun x => ?_
      simp only [List.mem_append, @or_comm (x ∈ variableNames rs)]
    · rw [old, List.forall_mem_append] at known
      have both : ∀ x ∈ variableNames rs ++ variableNames ls, x ∈ variableNames bs :=
        List.forall_mem_append.mpr ⟨known.2, known.1⟩
      rw [frame', frame, Frame.ofNames_of_subset both,
        Frame.ofNames_of_subset (List.forall_mem_append.mpr known)]

theorem Definition.compares (greater : t.IsGreater) {ts : List Token} {f : Function}
    (h : Definition ts f) (mem : t ∈ ts) :
    ∃ bs ls rs as s', ComparesIn f bs ls t rs as s' ∧ ts = bs ++ (ls ++ t :: rs ++ as) := by
  cases h with
  | @intro n l r o c name ps ts names frame body hk ht hl hparams hr ho hbody hc hframe =>
    have mem := greater.mem_of_kind (by rw [hk]; exact nofun) mem
    have mem := greater.mem_of_punctuator hl (by decide) mem
    rcases List.mem_append.mp mem with mem | mem
    · exact absurd mem (hparams.not_mem greater)
    have mem := greater.mem_of_punctuator ho (by decide)
      (greater.mem_of_punctuator hr (by decide) mem)
    rcases List.mem_append.mp mem with mem | mem
    · have compares := hbody.compares greater mem
      cases compares with
      | @intro bs ls rs as a b s s' op within ha hsign mirror hb =>
        exact ⟨_, ls, rs, _, s', .intro (.intro hk ht hl hparams hr ho within hc hframe) ha hsign
          mirror hb, by simp⟩
    · exact absurd (greater.mem_of_punctuator hc (by decide) mem) List.not_mem_nil

/-- Every token of this kind is the sign of a comparison in a function. -/
theorem Program.compares (greater : t.IsGreater) {ts : List Token} {p : StackCompiler.Program}
    (h : Program ts p) (mem : t ∈ ts) :
    ∃ fs f gs es bs ls rs as zs s', p = fs ++ f :: gs ∧ Program es fs ∧
      ComparesIn f bs ls t rs as s' ∧ Program zs gs ∧
      ts = es ++ (bs ++ (ls ++ t :: rs ++ as) ++ zs) := by
  induction h with
  | nil => cases mem
  | @cons us vs f p definition others ih =>
    rcases List.mem_append.mp mem with mem | mem
    · obtain ⟨bs, ls, rs, as, s', compares, rfl⟩ := definition.compares greater mem
      exact ⟨[], f, p, [], bs, ls, rs, as, vs, s', rfl, .nil, compares, others, rfl⟩
    · obtain ⟨fs, g, gs, es, bs, ls, rs, as, zs, s', rfl, before, compares, after, rfl⟩ := ih mem
      exact ⟨f :: fs, g, gs, us ++ es, bs, ls, rs, as, zs, s', rfl, .cons definition before,
        compares, after, (List.append_assoc us es _).symm⟩

end Compares

end Grammar

end StackCompiler
