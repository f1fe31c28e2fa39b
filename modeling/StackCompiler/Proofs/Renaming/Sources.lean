import Mathlib
import StackCompiler.Proofs.Labelling
import StackCompiler.Proofs.Relocation
import StackCompiler.Proofs.Renaming.Code
import StackCompiler.Proofs.Slots
import StackCompiler.Proofs.Spacing

/-!
# Sources with other variables

The names of the variables of a function may be exchanged for others in its source. The names of
functions stay as they are, those that are called included, even where a variable has such a name.

Main statement: the source is read with other variables in the place of the old ones, and it is
compiled to the same listing, or not at all if the original is not (`compileWith_renamed`).
-/

namespace StackCompiler

/-! ## 1. Frames -/

namespace Frame

theorem ext_names {f g : Frame} (h : f.names = g.names) : f = g := by
  cases f
  cases g
  cases h
  rfl

/-- The frame with its variables renamed. -/
def rename (τ : String → String) (f : Frame) : Frame :=
  ofNames (f.names.map τ)

variable {τ : String → String}

theorem names_foldl_map {names : List String} {f g : Frame} (same : g.names = f.names.map τ)
    (inj : Set.InjOn τ {x | x ∈ f.names ∨ x ∈ names}) :
    ((names.map τ).foldl insert g).names = (names.foldl insert f).names.map τ := by
  induction names generalizing f g with
  | nil => exact same
  | cons x names ih =>
    rw [List.map_cons, List.foldl_cons, List.foldl_cons]
    have known : τ x ∈ g.names ↔ x ∈ f.names := by
      rw [same, List.mem_map]
      refine ⟨?_, fun hx => ⟨x, hx, rfl⟩⟩
      rintro ⟨y, hy, eq⟩
      exact inj (.inl hy) (.inr List.mem_cons_self) eq ▸ hy
    refine ih ?_ (inj.mono ?_)
    · by_cases hx : x ∈ f.names
      · rw [names_insert_of_mem hx, names_insert_of_mem (known.mpr hx), same]
      · rw [names_insert_of_not_mem hx, names_insert_of_not_mem (fun h => hx (known.mp h)), same,
          List.map_append, List.map_singleton]
    · rintro y (hy | hy)
      · rcases mem_names_insert.mp hy with hy | rfl
        · exact .inl hy
        · exact .inr List.mem_cons_self
      · exact .inr (List.mem_cons_of_mem _ hy)

/-- Renaming one for one keeps the order of the names. -/
theorem names_ofNames_map {names : List String} (inj : Set.InjOn τ {x | x ∈ names}) :
    (ofNames (names.map τ)).names = (ofNames names).names.map τ :=
  names_foldl_map rfl (inj.mono fun _ hx => hx.resolve_left (List.not_mem_nil))

theorem names_rename {f : Frame} (inj : Set.InjOn τ {x | x ∈ f.names}) :
    (f.rename τ).names = f.names.map τ := by
  have distinct : (ofNames f.names).names = f.names := by
    rw [ofNames, names_foldl_of_nodup (by simpa [empty] using f.distinct)]
    rfl
  rw [rename, names_ofNames_map inj, distinct]

theorem rename_ofNames {names : List String} (inj : Set.InjOn τ {x | x ∈ names}) :
    (ofNames names).rename τ = ofNames (names.map τ) := by
  refine ext_names ?_
  rw [names_ofNames_map inj, names_rename]
  exact inj.mono fun x hx => mem_names_ofNames.mp hx

/-- A renamed variable keeps its slot. -/
theorem offset_rename {f : Frame} (inj : Set.InjOn τ {x | x ∈ f.names}) {x : String}
    (hx : x ∈ f.names) : (f.rename τ).offset (τ x) = f.offset x := by
  have names := names_rename inj
  have lt : f.names.idxOf x < (f.rename τ).names.length := by
    rw [names, List.length_map]
    exact List.idxOf_lt_length_of_mem hx
  have found : (f.rename τ).names[f.names.idxOf x] = τ x := by
    simp only [names, List.getElem_map, List.getElem_idxOf]
  have index := (f.rename τ).distinct.idxOf_getElem _ lt
  rw [found] at index
  rw [offset, offset, index]

theorem size_rename {f : Frame} (inj : Set.InjOn τ {x | x ∈ f.names}) :
    (f.rename τ).size = f.size := by
  rw [size, size, length, length, names_rename inj, List.length_map]

end Frame

/-! ## 2. Programs -/

/-- The variables of every function of a program are renamed, one for one, to identifiers: those of
the function with the index `k` by `ρ k`. -/
structure Program.Renaming (p : Program) (ρ : Nat → String → String) : Prop where
  inj : ∀ (k : Nat) (f : Function), p[k]? = some f → Set.InjOn (ρ k) {x | x ∈ f.frame.names}
  identifier : ∀ (k : Nat) (f : Function), p[k]? = some f →
    ∀ x ∈ f.frame.names, IsIdentifier (ρ k x)

namespace Program

/-- The program with its variables renamed. -/
def rename : Program → (Nat → String → String) → Program
  | [], _ => []
  | f :: rest, ρ => f.rename (ρ 0) (f.frame.rename (ρ 0)) :: rename rest fun k => ρ (k + 1)

/-- The index of the function that a place of the source belongs to: of the last function whose name
stands no later. -/
def indexAt (p : Program) (loc : Nat) : Nat :=
  (p.countP fun f => f.loc ≤ loc) - 1

/-- How a variable is spelled at a place of the source. -/
def spelling (p : Program) (ρ : Nat → String → String) (loc : Nat) : String → String :=
  ρ (p.indexAt loc)

variable {p : Program} {ρ : Nat → String → String}

theorem Renaming.head {f : Function} {rest : Program} (h : Renaming (f :: rest) ρ) :
    Set.InjOn (ρ 0) {x | x ∈ f.frame.names} ∧ ∀ x ∈ f.frame.names, IsIdentifier (ρ 0 x) :=
  ⟨h.inj 0 f rfl, h.identifier 0 f rfl⟩

theorem Renaming.tail {f : Function} {rest : Program} (h : Renaming (f :: rest) ρ) :
    Renaming rest fun k => ρ (k + 1) :=
  ⟨fun k => h.inj (k + 1), fun k => h.identifier (k + 1)⟩

/-- Nothing but the names and the variables of a renamed program is of interest to its sources. -/
theorem variables_rename (h : p.Renaming ρ) :
    (p.rename ρ).map (fun f => (f.name, f.frame.names)) =
      p.mapIdx fun k f => (f.name, f.frame.names.map (ρ k)) := by
  induction p generalizing ρ with
  | nil => rfl
  | cons f rest ih =>
    rw [rename, List.map_cons, ih h.tail, List.mapIdx_cons]
    exact congrArg (· :: _) (Prod.ext rfl (Frame.names_rename h.head.1))

theorem paramsDistinct_rename (h : p.Renaming ρ) (bound : ∀ f ∈ p, f.Bound)
    (distinct : ∀ f ∈ p, f.ParamsDistinct) : ∀ f ∈ p.rename ρ, f.ParamsDistinct := by
  induction p generalizing ρ with
  | nil => exact List.forall_mem_nil _
  | cons f rest ih =>
    rw [List.forall_mem_cons] at bound distinct
    refine List.forall_mem_cons.mpr ⟨?_, ih h.tail bound.2 distinct.2⟩
    have names : (f.rename (ρ 0) (f.frame.rename (ρ 0))).params.map Slot.name =
        (f.params.map Slot.name).map (ρ 0) := by
      rw [Function.rename, List.map_map, List.map_map]
      rfl
    rw [Function.ParamsDistinct, names]
    refine List.Nodup.map_on (fun x hx y hy => h.head.1 ?_ ?_) distinct.1
    · obtain ⟨param, hp, rfl⟩ := List.mem_map.mp hx
      exact (bound.1.params param hp).1
    · obtain ⟨param, hp, rfl⟩ := List.mem_map.mp hy
      exact (bound.1.params param hp).1

theorem elsesNearest_rename (ρ : Nat → String → String) (nearest : ∀ f ∈ p, f.ElsesNearest) :
    ∀ f ∈ p.rename ρ, f.ElsesNearest := by
  induction p generalizing ρ with
  | nil => exact List.forall_mem_nil _
  | cons f rest ih =>
    rw [List.forall_mem_cons] at nearest
    exact List.forall_mem_cons.mpr
      ⟨(elsesNearestIn_renameBlock _ _ f.body).mpr nearest.1, ih _ nearest.2⟩

theorem demandsAfter_rename (ρ : Nat → String → String) (earlier : List String) :
    (p.rename ρ).demandsAfter earlier = p.demandsAfter earlier := by
  induction p generalizing ρ earlier with
  | nil => rfl
  | cons f rest ih =>
    rw [rename, demandsAfter, demandsAfter, f.demands_rename, ih]
    rfl

theorem sections_rename (h : p.Renaming ρ) (bound : ∀ f ∈ p, f.Bound) (number : Nat) :
    (p.rename ρ).sections number = p.sections number := by
  induction p generalizing ρ number with
  | nil => rfl
  | cons f rest ih =>
    rw [List.forall_mem_cons] at bound
    have inj := h.head.1
    have slots : f.frame.Reslots (ρ 0) (f.frame.rename (ρ 0)).offset id :=
      fun x hx => Frame.offset_rename inj hx
    have code := f.code_rename bound.1 slots (Frame.size_rename inj) number
    rw [List.map_congr_left fun line _ => line.reslot_id, List.map_id'] at code
    have labels : (f.rename (ρ 0) (f.frame.rename (ρ 0))).labels = f.labels :=
      labels_renameBlock _ _ f.body
    rw [rename, sections, sections, code, labels, ih h.tail bound.2]

/-- A renamed program has the same listing, or the same fault. -/
theorem generate_rename (h : p.Renaming ρ) (bound : ∀ f ∈ p, f.Bound) (s : Label.Supply) :
    (p.rename ρ).generate s = p.generate s := by
  have admitted : (p.rename ρ).admission s = p.admission s := by
    rw [admission_eq, admission_eq, demands, demands, demandsAfter_rename]
  rw [generate_eq, generate_eq, admitted, listing, sections_rename h bound, listing]

end Program

/-! ## 3. Tokens of programs -/

namespace Grammar

open Surface (variableNames_variable variableNames_called variableNames_punctuator
  variableNames_append)

theorem Parameters.variableNames {ts : List Token} {names : List String}
    (h : Parameters ts names) : variableNames ts = names := by
  induction h with
  | last hk ht => exact variableNames_variable hk ht not_leads_nil
  | more hk ht hc _ ih =>
    rw [variableNames_variable hk ht (not_leads_cons hc (by decide)), variableNames_punctuator hc,
      ih]

theorem OptParameters.variableNames {ts : List Token} {names : List String}
    (h : OptParameters ts names) : variableNames ts = names := by
  cases h with
  | absent => rfl
  | present h => exact h.variableNames

/-- The frame of a function is made up of the variables among its tokens. -/
theorem Definition.frame_eq {ts : List Token} {f : Function} (h : Definition ts f) :
    f.frame = Frame.ofNames (variableNames ts) := by
  cases h with
  | intro hk ht hl hparams hr ho hbody hc hframe =>
    rw [variableNames_called (leads_cons.mpr hl), variableNames_punctuator hl,
      variableNames_append hr (by decide), variableNames_punctuator ho,
      variableNames_append hc (by decide), hparams.variableNames]
    rw [variableNames, List.append_nil]
    exact hframe

theorem Definition.apart {ts : List Token} {f : Function} (h : Definition ts f) (us : List Token) :
    Apart ts us := by
  cases h with
  | intro _ _ _ _ _ _ _ hc _ =>
    have ends := ne_ident_of_isPunctuator hc
    exact ((((apart_concat ends).cons (by simp) _).behind (by simp) _ _).cons (by simp) _).cons
      (by simp) _

/-- A function is located at its first token. -/
theorem Definition.exists_first {ts : List Token} {f : Function} (h : Definition ts f) :
    ∃ t us, ts = t :: us ∧ f.loc = t.loc := by
  cases h with
  | intro => exact ⟨_, _, rfl, rfl⟩

theorem Program.exists_first {ts : List Token} {p : StackCompiler.Program} (h : Program ts p) :
    ∀ f ∈ p, ∃ t ∈ ts, f.loc = t.loc := by
  induction h with
  | nil => exact List.forall_mem_nil _
  | cons hf _ ih =>
    obtain ⟨t, us, rfl, here⟩ := hf.exists_first
    refine List.forall_mem_cons.mpr ⟨⟨t, List.mem_append_left _ List.mem_cons_self, here⟩, ?_⟩
    intro g hg
    obtain ⟨t', ht', there⟩ := ih g hg
    exact ⟨t', List.mem_append_right _ ht', there⟩

section Places

variable {us vs : List Token} {f : Function} {rest : StackCompiler.Program}

/-- The tokens of a function belong to it, and not to those behind it. -/
theorem indexAt_of_mem (others : Program vs rest)
    (ordered : (us ++ vs).Pairwise fun t t' => t.loc < t'.loc) {t : Token} (ht : t ∈ us) :
    StackCompiler.Program.indexAt (f :: rest) t.loc = 0 := by
  obtain ⟨_, _, apart⟩ := List.pairwise_append.mp ordered
  have none : rest.countP (fun g => g.loc ≤ t.loc) = 0 := by
    refine List.countP_eq_zero.mpr fun g hg le => ?_
    obtain ⟨t', ht', there⟩ := others.exists_first g hg
    have := apart t ht t' ht'
    rw [decide_eq_true_eq, there] at le
    omega
  rw [StackCompiler.Program.indexAt, List.countP_cons, none]
  split <;> rfl

theorem indexAt_of_mem_rest (first : Definition us f) (others : Program vs rest)
    (ordered : (us ++ vs).Pairwise fun t t' => t.loc < t'.loc) {t : Token} (ht : t ∈ vs) :
    StackCompiler.Program.indexAt (f :: rest) t.loc = rest.indexAt t.loc + 1 := by
  obtain ⟨_, sorted, apart⟩ := List.pairwise_append.mp ordered
  obtain ⟨t₁, us, rfl, here⟩ := first.exists_first
  have before : f.loc ≤ t.loc := by
    rw [here]
    exact Nat.le_of_lt (apart t₁ List.mem_cons_self t ht)
  have some : 0 < rest.countP (fun g => g.loc ≤ t.loc) := by
    cases others with
    | nil => cases ht
    | @cons ws xs g gs definition _ =>
      obtain ⟨t₂, ws, rfl, there⟩ := definition.exists_first
      refine List.countP_pos_iff.mpr ⟨g, List.mem_cons_self, ?_⟩
      rw [decide_eq_true_eq, there]
      rcases List.mem_cons.mp ht with rfl | later
      · exact Nat.le_refl _
      · exact Nat.le_of_lt ((List.pairwise_cons.mp sorted).1 t later)
  rw [StackCompiler.Program.indexAt, List.countP_cons_of_pos (by simpa using before),
    StackCompiler.Program.indexAt]
  omega

end Places

/-- Names of variables that are identifiers may be written in the place of others. -/
theorem spelled_respell {τ : String → String} {ts : List Token} (spelled : ∀ t ∈ ts, t.Spelled)
    (names : ∀ x ∈ variableNames ts, IsIdentifier (τ x)) :
    ∀ t ∈ respell (fun _ => τ) ts, t.Spelled := by
  induction ts with
  | nil => exact List.forall_mem_nil _
  | cons t ts ih =>
    obtain ⟨first, spelled⟩ := List.forall_mem_cons.mp spelled
    rw [variableNames] at names
    by_cases h : t.kind = .ident ∧ ¬ Leads "(" ts
    · rw [if_pos h] at names
      refine List.forall_mem_cons.mpr ⟨?_, ih spelled fun x hx => names x (by simp [hx])⟩
      obtain ⟨text, same, -⟩ := first
      have name := names (String.ofList text) (by simp [same])
      rw [respellBefore, if_pos h]
      refine ⟨(τ (String.ofList text)).toList, ?_, ?_⟩
      · rw [same, String.ofList_toList]
        rfl
      · rw [h.1]
        exact name
    · rw [if_neg h] at names
      refine List.forall_mem_cons.mpr ⟨?_, ih spelled names⟩
      rwa [respellBefore, if_neg h]

/-- The respelled tokens of a program denote the renamed program, and they can be written. -/
theorem Program.rename {ts : List Token} {p : StackCompiler.Program} (h : Program ts p)
    {ρ : Nat → String → String} (fits : p.Renaming ρ)
    (ordered : ts.Pairwise fun t t' => t.loc < t'.loc) (spelled : ∀ t ∈ ts, t.Spelled) :
    Program (respell (p.spelling ρ) ts) (p.rename ρ) ∧
      ∀ t ∈ respell (p.spelling ρ) ts, t.Spelled := by
  induction h generalizing ρ with
  | nil => exact ⟨.nil, List.forall_mem_nil _⟩
  | @cons us vs f rest definition others ih =>
    obtain ⟨inj, identifier⟩ := fits.head
    obtain ⟨_, sorted, _⟩ := List.pairwise_append.mp ordered
    rw [List.forall_mem_append] at spelled
    have here : respell (StackCompiler.Program.spelling (f :: rest) ρ) us =
        respell (fun _ => ρ 0) us := by
      refine respell_congr fun t ht => ?_
      rw [StackCompiler.Program.spelling, indexAt_of_mem others ordered ht]
    have there : respell (StackCompiler.Program.spelling (f :: rest) ρ) vs =
        respell (rest.spelling fun k => ρ (k + 1)) vs := by
      refine respell_congr fun t ht => ?_
      rw [StackCompiler.Program.spelling, indexAt_of_mem_rest definition others ordered ht]
      rfl
    obtain ⟨derivable, written⟩ := ih fits.tail sorted spelled.2
    rw [respell_append (definition.apart vs), here, there]
    have known : ∀ x ∈ variableNames us, x ∈ f.frame.names := by
      intro x hx
      rw [definition.frame_eq, Frame.mem_names_ofNames]
      exact hx
    refine ⟨.cons (definition.rename (ρ 0) fun names hnames => ?_) derivable, ?_⟩
    · rw [hnames, Frame.rename_ofNames]
      refine inj.mono fun x hx => ?_
      show x ∈ f.frame.names
      rw [hnames, Frame.mem_names_ofNames]
      exact hx
    · exact List.forall_mem_append.mpr
        ⟨spelled_respell spelled.1 fun x hx => identifier x (known x hx), written⟩

end Grammar

/-! ## 4. Texts -/

namespace Token

open Grammar (respell respellBefore)

/-- The source `source'` is `source` with its variables respelled. All other tokens and all blanks
are as they were. -/
def Respells (τ : Nat → String → String) (source source' : String) : Prop :=
  ∃ lead parts, IsSpread [] source.toList lead parts ∧
    scan source = .ok (parts.map Prod.fst ++ [endOf source]) ∧
    source'.toList =
      lead ++ spread ((respell τ (parts.map Prod.fst)).zip (parts.map Prod.snd))

theorem exists_respells {τ : Nat → String → String} {source : String} {tokens : List Token}
    (scanned : scan source = .ok tokens) : ∃ source', Respells τ source source' := by
  obtain ⟨lead, parts, isSpread, rfl⟩ := exists_isSpread scanned
  exact ⟨_, lead, parts, isSpread, scanned, String.toList_ofList⟩

/-- Neighbours that are written in the place of others fuse at most where these do. -/
theorem Fuses.mono {t t' u u' : Token} (h : Fuses t' u') (kind : t'.kind = t.kind)
    (kind' : u'.kind = u.kind) (same : t.kind = .punctuator → t'.chars = t.chars)
    (first : u'.chars.head? = some '=' → u.chars.head? = some '=') : Fuses t u := by
  cases h with
  | word hk hk' => exact .word (kind ▸ hk) (kind' ▸ hk')
  | number hk hk' => exact .number (kind.symm.trans hk) (kind'.symm.trans hk')
  | pair hk short mem equals =>
    have punctuator : t.kind = .punctuator := kind.symm.trans hk
    exact .pair punctuator ((same punctuator).symm.trans short) mem (first equals)

/-- A respelled token does not start with an equals sign unless it did before. -/
theorem head_respellBefore {τ : Nat → String → String} {t : Token} {rest : List Token}
    (spelled : (respellBefore τ t rest).Spelled)
    (h : (respellBefore τ t rest).chars.head? = some '=') : t.chars.head? = some '=' := by
  by_cases hk : t.kind = .ident
  · have lexeme := spelled.isLexeme
    rw [Grammar.kind_respellBefore, hk] at lexeme
    obtain ⟨c, cs, same, -⟩ := spelled.exists_cons
    rw [same] at lexeme h
    have part := lexeme.continuesWord_iff.mpr (.inl rfl)
    rw [List.head?_cons, Option.some.injEq] at h
    rw [h] at part
    cases part
  · rwa [Grammar.respellBefore_of_ne hk] at h

theorem separated_respell {τ : Nat → String → String} {parts : List (Token × List Char)}
    (spelled : ∀ t ∈ respell τ (parts.map Prod.fst), t.Spelled) (h : Separated parts) :
    Separated ((respell τ (parts.map Prod.fst)).zip (parts.map Prod.snd)) := by
  induction parts with
  | nil => exact .nil
  | cons part parts ih =>
    cases parts with
    | nil => exact .singleton _
    | cons next parts =>
      obtain ⟨apart, others⟩ := List.isChain_cons_cons.mp h
      obtain ⟨-, spelled⟩ := List.forall_mem_cons.mp spelled
      refine List.isChain_cons_cons.mpr ⟨fun fuses => ?_, ih spelled others⟩
      refine apart (fuses.mono (Grammar.kind_respellBefore _) (Grammar.kind_respellBefore _) ?_ ?_)
      · intro hk
        rw [Grammar.respellBefore_of_ne (by rw [hk]; exact nofun)]
      · exact head_respellBefore (spelled _ List.mem_cons_self)

theorem length_respell (τ : Nat → String → String) (ts : List Token) :
    (respell τ ts).length = ts.length := by
  have := congrArg List.length (Grammar.locs_respell τ ts)
  rwa [List.length_map, List.length_map] at this

end Token

/-! ## 5. Compilation -/

section Compilation

variable {source : String} {p : Program} {s s' : Label.Supply} {lines : Listing}

/-- Tokens at places of their own that denote a program can be scanned elsewhere. -/
theorem Program.exists_ofSource_relocate {body us : List Token}
    (scanned : Token.scan source = .ok (body ++ [Token.endOf source]))
    (contents : body.map Token.content = us.map Token.content)
    (distinct : us.Pairwise fun t t' => t.loc ≠ t'.loc) (derivable : Grammar.Program us p)
    (params : ∀ f ∈ p, f.ParamsDistinct) (nearest : ∀ f ∈ p, f.ElsesNearest) :
    ∃ g, Program.ofSource source = .ok (p.relocate g) := by
  obtain ⟨g, rfl⟩ := Token.exists_relocate distinct contents.symm
  obtain ⟨whole, -, exact_⟩ := ofSource_exact scanned
  have before := List.append_cancel_right whole
  refine ⟨g, (exact_ _).mpr ⟨before ▸ derivable.relocate g, ?_, ?_⟩⟩
  · exact List.forall_mem_map.mpr params
  · exact List.forall_mem_map.mpr fun f hf =>
      (elsesNearestIn_relocateBlock g f.body).mpr (nearest f hf)

theorem exists_scan_of_read (h : Program.ofSource source = .ok p) :
    ∃ tokens, Token.scan source = .ok tokens := by
  unfold Program.ofSource at h
  cases scanned : Token.scan source with
  | error l =>
    rw [scanned] at h
    cases h
  | ok tokens => exact ⟨tokens, rfl⟩

/-- What is compiled from a source is generated from its program. -/
theorem compileWith_eq_ok (read : Program.ofSource source = .ok p) :
    compileWith source s = (.ok lines, s') ↔ p.generate s = (.ok lines, s') := by
  rw [compileWith_of_read read]
  rcases p.generate s with ⟨l | lines', rest⟩
  · simp [Except.mapError]
  · simp [Except.mapError]

/-- A listing does not depend on where its program is located. -/
theorem Program.generate_relocate_eq_ok {g : Nat → Nat} :
    (p.relocate g).generate s = (.ok lines, s') ↔ p.generate s = (.ok lines, s') := by
  rw [p.generate_relocate]
  rcases p.generate s with ⟨l | lines', rest⟩
  · simp [Except.mapError]
  · simp [Except.mapError]

end Compilation

/-- A source with its variables renamed is read as the renamed program, at other places. -/
theorem Program.exists_ofSource_respelled {source source' : String} {p : Program}
    {ρ : Nat → String → String} (read : Program.ofSource source = .ok p) (fits : p.Renaming ρ)
    (respells : Token.Respells (p.spelling ρ) source source') :
    ∃ g, Program.ofSource source' = .ok ((p.rename ρ).relocate g) := by
  obtain ⟨lead, parts, spread, scanned, written'⟩ := respells
  have spelled := Token.spelled_of_scan scanned rfl
  obtain ⟨body, split, lexes⟩ := Token.scan_eq_ok.mp scanned
  obtain ⟨rfl, -⟩ := List.append_inj' split rfl
  obtain ⟨whole, -, exact_⟩ := Program.ofSource_exact scanned
  obtain ⟨derivable, distinct, nearest⟩ := (exact_ p).mp read
  rw [← List.append_cancel_right whole] at derivable
  obtain ⟨renamed, written⟩ := derivable.rename fits lexes.pairwise_loc
    (List.forall_mem_map.mpr spelled)
  let us := Grammar.respell (p.spelling ρ) (parts.map Prod.fst)
  have lengths : us.length = (parts.map Prod.snd).length := by
    rw [Token.length_respell, List.length_map, List.length_map]
  have firsts : (us.zip (parts.map Prod.snd)).map Prod.fst = us :=
    List.map_fst_zip (Nat.le_of_eq lengths)
  have blank : Token.AllBlank (us.zip (parts.map Prod.snd)) := by
    rintro ⟨t, gap⟩ part
    obtain ⟨old, ho, rfl⟩ := List.mem_map.mp (List.of_mem_zip part).2
    exact spread.blank old ho
  have separated := Token.separated_respell written
    ((Token.allLexemes_iff spelled spread.blank).mp spread.lexemes)
  obtain ⟨body, scanned', contents⟩ := Token.exists_scan_spread
    (fun part hp => written _ (List.of_mem_zip hp).1) spread.front blank separated
  rw [← written', String.ofList_toList] at scanned'
  have places : us.Pairwise fun t t' => t.loc ≠ t'.loc := by
    rw [← List.pairwise_map, Grammar.locs_respell, List.pairwise_map]
    exact lexes.pairwise_loc.imp Nat.ne_of_lt
  rw [← List.map_map, firsts] at contents
  exact exists_ofSource_relocate scanned' contents places renamed
    (paramsDistinct_rename fits (bound_of_ofSource read) distinct) (elsesNearest_rename ρ nearest)

/-- The names of variables do not matter. The variables of every function may be renamed in the
source, each time they occur, as long as they stay different within the function and are
identifiers. The source with the new names can be read, and it is compiled to the same listing as
the original, or not at all if the original is not. -/
theorem compileWith_renamed {source : String} {p : Program} {ρ : Nat → String → String}
    (read : Program.ofSource source = .ok p) (fits : p.Renaming ρ) :
    (∃ source', Token.Respells (p.spelling ρ) source source') ∧
      ∀ source', Token.Respells (p.spelling ρ) source source' →
        (∃ p', Program.ofSource source' = .ok p' ∧
          p'.map (fun f => (f.name, f.frame.names)) =
            p.mapIdx fun k f => (f.name, f.frame.names.map (ρ k))) ∧
        ∀ (s s' : Label.Supply) (lines : Listing),
          compileWith source' s = (.ok lines, s') ↔ compileWith source s = (.ok lines, s') := by
  have bound := Program.bound_of_ofSource read
  refine ⟨?_, fun source' respells => ?_⟩
  · obtain ⟨tokens, scanned⟩ := exists_scan_of_read read
    exact Token.exists_respells scanned
  · obtain ⟨g, read'⟩ := Program.exists_ofSource_respelled read fits respells
    refine ⟨⟨_, read', ?_⟩, fun s s' lines => ?_⟩
    · rw [← Program.variables_rename fits, Program.relocate, List.map_map]
      rfl
    · rw [compileWith_eq_ok read', compileWith_eq_ok read, Program.generate_relocate_eq_ok,
        Program.generate_rename fits bound]

/-- The program `f(a,b){return a(b)-b;}`, in which a function and a variable have one name. -/
def Program.namesakes : Program :=
  [{ name := "f"
     loc := 0
     params := [⟨"a", 8⟩, ⟨"b", 16⟩]
     body := [.ret (.binary .sub (.call "a" [.var "b" 16 16] 14) (.var "b" 16 19))]
     frame := .ofNames ["a", "b"]
     frameSize := 16 }]

/-- The first variable gets the name of the second one, and that gets the name of the function. -/
def Program.namesakesRenamed (_ : Nat) (x : String) : String :=
  if x = "a" then "b" else "f"

theorem compileWith_namesakes :
    Program.ofSource "f(a,b){return a(b)-b;}" = .ok .namesakes ∧
      Program.namesakes.Renaming Program.namesakesRenamed ∧
      (∃ source', Token.Respells (Program.namesakes.spelling Program.namesakesRenamed)
          "f(a,b){return a(b)-b;}" source') ∧
      ∀ source', Token.Respells (Program.namesakes.spelling Program.namesakesRenamed)
          "f(a,b){return a(b)-b;}" source' →
        (∃ p', Program.ofSource source' = .ok p' ∧
          p'.map (fun f => (f.name, f.frame.names)) = [("f", ["b", "f"])]) ∧
        ∀ (s s' : Label.Supply) (lines : Listing),
          compileWith source' s = (.ok lines, s') ↔
            compileWith "f(a,b){return a(b)-b;}" s = (.ok lines, s') := by
  have read : Program.ofSource "f(a,b){return a(b)-b;}" = .ok .namesakes := by cbv
  have names {k : Nat} {f : Function} (hf : Program.namesakes[k]? = some f) {x : String}
      (hx : x ∈ f.frame.names) : x = "a" ∨ x = "b" := by
    obtain rfl := List.mem_singleton.mp (List.mem_of_getElem? hf)
    have listed : x ∈ ["a", "b"] := hx
    simpa using listed
  have first : Program.namesakesRenamed 0 "a" = "b" := rfl
  have second : Program.namesakesRenamed 0 "b" = "f" := rfl
  have fits : Program.namesakes.Renaming Program.namesakesRenamed := by
    constructor
    · intro k f hf x hx y hy same
      change Program.namesakesRenamed 0 x = Program.namesakesRenamed 0 y at same
      rcases names hf hx with rfl | rfl <;> rcases names hf hy with rfl | rfl
      · rfl
      · rw [first, second] at same
        exact absurd same (by decide)
      · rw [first, second] at same
        exact absurd same (by decide)
      · rfl
    · intro k f hf x hx
      show IsIdentifier (Program.namesakesRenamed 0 x)
      rcases names hf hx with rfl | rfl
      · rw [first]
        exact .word rfl (List.forall_mem_nil _) (Token.notFirst_nil _) (by decide)
      · rw [second]
        exact .word rfl (List.forall_mem_nil _) (Token.notFirst_nil _) (by decide)
  exact ⟨read, fits, compileWith_renamed read fits⟩

end StackCompiler
