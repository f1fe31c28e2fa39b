import Mathlib
import StackCompiler.Proofs.Grammar.Contexts
import StackCompiler.Proofs.Renaming.Sources
import StackCompiler.Proofs.Sections

/-!
# Functions with a part exchanged

If other tokens with the same variables and the same meaning are put in the place of a part of a
function, then the function has the same variables. But they may come up in another order, and so
their slots are exchanged.

The main statements are these.
* A frame with the same names in another order has the same slots (`Frame.bijOn_transfer`).
* The tokens with the part exchanged denote the function, bound to their frame
  (`Grammar.Around.exists_definition`).
* A program in which one function is bound to another frame has the same listing up to the slots of
  this function, or none if the original has none (`Program.generate_rebound`).
-/

namespace StackCompiler

/-! ## 1. Frames with the same names -/

namespace Frame

theorem foldl_insert_of_subset {names : List String} {f : Frame} (h : ∀ x ∈ names, x ∈ f.names) :
    names.foldl insert f = f := by
  induction names with
  | nil => rfl
  | cons x names ih =>
    obtain ⟨known, others⟩ := List.forall_mem_cons.mp h
    rw [List.foldl_cons, insert, dif_pos known, ih others]

/-- Names that came up before get no slots. -/
theorem ofNames_of_subset {before names : List String} (h : ∀ x ∈ names, x ∈ before)
    (after : List String) : ofNames (before ++ (names ++ after)) = ofNames (before ++ after) := by
  have known : names.foldl insert (ofNames before) = ofNames before :=
    foldl_insert_of_subset fun x hx => mem_names_ofNames.mpr (h x hx)
  unfold ofNames at known ⊢
  rw [List.foldl_append, List.foldl_append, known, List.foldl_append]

theorem perm_names_ofNames {names names' : List String} (h : ∀ x, x ∈ names' ↔ x ∈ names) :
    (ofNames names').names.Perm (ofNames names).names := by
  refine (List.perm_ext_iff_of_nodup (ofNames names').distinct (ofNames names).distinct).mpr ?_
  intro x
  rw [mem_names_ofNames, mem_names_ofNames, h]

variable {f g : Frame}

theorem size_of_perm (h : g.names.Perm f.names) : g.size = f.size := by
  rw [size, size, length, length, h.length_eq]

/-- The offset in `g` of the variable at an offset in `f`. -/
def transfer (f g : Frame) (offset : Nat) : Nat :=
  (f.names[offset / wordSize - 1]?).elim offset g.offset

theorem transfer_offset {x : String} (hx : x ∈ f.names) :
    f.transfer g (f.offset x) = g.offset x := by
  have index : f.offset x / wordSize - 1 = f.names.idxOf x := by
    rw [offset, Nat.mul_div_cancel_left _ (by decide), Nat.add_sub_cancel]
  have found : f.names[f.names.idxOf x]? = some x := by
    rw [List.getElem?_eq_getElem (List.idxOf_lt_length_of_mem hx), List.getElem_idxOf]
  rw [transfer, index, found]
  rfl

/-- The offsets of all slots. -/
def offsets (f : Frame) : Set Nat :=
  f.offset '' {x | x ∈ f.names}

/-- If two frames have the same names, then each slot of the one becomes a slot of the other. -/
theorem bijOn_transfer (h : g.names.Perm f.names) :
    Set.BijOn (f.transfer g) f.offsets g.offsets := by
  refine ⟨?_, ?_, ?_⟩
  · rintro _ ⟨x, hx, rfl⟩
    rw [transfer_offset hx]
    exact ⟨x, h.mem_iff.mpr hx, rfl⟩
  · rintro _ ⟨x, hx, rfl⟩ _ ⟨y, hy, rfl⟩ same
    rw [transfer_offset hx, transfer_offset hy] at same
    rw [offset_inj (h.mem_iff.mpr hx) same]
  · rintro _ ⟨x, hx, rfl⟩
    have known : x ∈ f.names := h.mem_iff.mp hx
    exact ⟨f.offset x, ⟨x, known, rfl⟩, transfer_offset known⟩

end Frame

/-! ## 2. Functions -/

/-- Functions that look the same when no part of them has a place. -/
def Function.Alike (f f' : Function) : Prop :=
  f'.relocate nowhere = f.relocate nowhere

namespace Function.Alike

variable {f f' : Function}

theorem relocate_eq (h : f.Alike f') : f'.relocate nowhere = f.relocate nowhere := h

theorem frame_eq (h : f.Alike f') : f'.frame = f.frame := by
  show (f'.relocate nowhere).frame = (f.relocate nowhere).frame
  rw [h.relocate_eq]

theorem frameSize_eq (h : f.Alike f') : f'.frameSize = f.frameSize := by
  show (f'.relocate nowhere).frameSize = (f.relocate nowhere).frameSize
  rw [h.relocate_eq]

theorem name_eq (h : f.Alike f') : f'.name = f.name := by
  show (f'.relocate nowhere).name = (f.relocate nowhere).name
  rw [h.relocate_eq]

theorem paramsDistinct (h : f.Alike f') : f'.ParamsDistinct ↔ f.ParamsDistinct := by
  show (f'.relocate nowhere).ParamsDistinct ↔ (f.relocate nowhere).ParamsDistinct
  rw [h.relocate_eq]

theorem elsesNearest (h : f.Alike f') : f'.ElsesNearest ↔ f.ElsesNearest := by
  have body (f : Function) : (f.relocate nowhere).ElsesNearest ↔ f.ElsesNearest :=
    elsesNearestIn_relocateBlock nowhere f.body
  rw [← body f', h.relocate_eq, body f]

end Function.Alike

namespace Grammar

/-- `Around us x f bs as`: the tokens `bs`, then the tokens `us` of a phrase `x`, then the tokens
`as` make up the function `f`. -/
inductive Around (us : List Token) (x : Phrase) : Function → List Token → List Token → Prop
  | intro {t l r o c : Token} {name : String} {ps bs as : List Token} {names : List String}
      {frame : Frame} {body : List Stmt} :
      t.kind = .ident → t.text = some name → l.isPunctuator "(" → OptParameters ps names →
      r.isPunctuator ")" → o.isPunctuator "\x7b" →
      Within frame.offset x (.statements body) bs as → c.isPunctuator "\x7d" →
      frame = Frame.ofNames (names ++ variableNames (bs ++ (us ++ as))) →
      Around us x
        { name := name
          loc := t.loc
          params := names.map fun param => ⟨param, frame.offset param⟩
          body := body
          frame := frame
          frameSize := frame.size }
        (t :: l :: (ps ++ r :: o :: bs)) (as ++ [c])

section Around

variable {us us' bs as : List Token} {x : Phrase} {f : Function}

theorem Around.apart (h : Around us x f bs as) (vs : List Token) : Apart bs vs := by
  cases h with
  | @intro t l r o c name ps bs as names frame body hk ht hl hparams hr ho within hc hframe =>
    have opened : Apart (o :: bs) vs := by
      cases bs with
      | nil => exact @apart_concat [] vs o (ne_ident_of_isPunctuator ho)
      | cons b bs => exact (within.apart vs).cons (List.cons_ne_nil b bs) o
    exact ((opened.behind (by simp) _ _).cons (by simp) _).cons (by simp) _

theorem Around.not_leads (h : Around us x f bs as) (expr : x.IsExpr) : ¬ Leads "(" as := by
  cases h with
  | @intro t l r o c name ps bs as names frame body hk ht hl hparams hr ho within hc hframe =>
    have clear := within.not_leads expr
    cases as with
    | nil => exact not_leads_cons hc (by decide)
    | cons a as =>
      rw [leads_cons] at clear
      rwa [List.cons_append, leads_cons]

/-- The variables before a part of a function, in it and behind it. -/
theorem Around.variableNames_eq (h : Around us x f bs as) (expr : x.IsExpr) (vs : List Token) :
    variableNames (bs ++ (vs ++ as)) =
      variableNames bs ++ (variableNames vs ++ variableNames as) := by
  rw [variableNames_append_of_apart (h.apart _),
    variableNames_append_of_apart (apart_of_not_leads (h.not_leads expr))]

theorem Around.frame_eq (h : Around us x f bs as) :
    f.frame = Frame.ofNames (variableNames (bs ++ (us ++ as))) := by
  cases h with
  | @intro t l r o c name ps bs as names frame body hk ht hl hparams hr ho within hc hframe =>
    have whole : t :: l :: (ps ++ r :: o :: bs) ++ (us ++ (as ++ [c])) =
        t :: l :: (ps ++ r :: o :: (bs ++ (us ++ as) ++ [c])) := by simp
    rw [whole, Surface.variableNames_called (leads_cons.mpr hl),
      Surface.variableNames_punctuator hl, Surface.variableNames_append hr (by decide),
      Surface.variableNames_punctuator ho, Surface.variableNames_append hc (by decide),
      hparams.variableNames]
    rw [variableNames, List.append_nil]
    exact hframe

/-- Other tokens in the place of a part make up the same function, bound to their frame. -/
theorem Around.exists_definition (h : Around us x f bs as)
    (inner : ∀ slot, x.Rederives slot us') :
    ∃ f', Definition (bs ++ (us' ++ as)) f' ∧
      (f.rename id (Frame.ofNames (variableNames (bs ++ (us' ++ as))))).Alike f' := by
  cases h with
  | @intro t l r o c name ps bs as names frame body hk ht hl hparams hr ho within hc hframe =>
    have whole : t :: l :: (ps ++ r :: o :: bs) ++ (us' ++ (as ++ [c])) =
        t :: l :: (ps ++ r :: o :: (bs ++ (us' ++ as) ++ [c])) := by simp
    rw [whole]
    let frame' := Frame.ofNames (names ++ variableNames (bs ++ (us' ++ as)))
    obtain ⟨body', derived, same⟩ := within.rederives (inner frame'.offset)
    have definition := Definition.intro hk ht hl hparams hr ho derived hc rfl
    refine ⟨_, definition, ?_⟩
    have frames : Frame.ofNames (variableNames
        (t :: l :: (ps ++ r :: o :: (bs ++ (us' ++ as) ++ [c])))) = frame' :=
      definition.frame_eq.symm
    rw [frames, Function.Alike, Function.relocate, Function.relocate, Function.rename, same,
      List.map_map]
    rfl

end Around

end Grammar

/-! ## 3. Programs -/

/-- The section with the slots of its function exchanged by `σ`. -/
def FunctionSection.reslot (σ : Nat → Nat) (s : FunctionSection) : FunctionSection :=
  ⟨s.function, s.body.map (Line.reslot σ)⟩

/-- The listing with the slots of its functions exchanged: those of the function with the index `k`
by `σ k`. -/
def Listing.reslot (σ : Nat → Nat → Nat) (lines : Listing) : Listing :=
  .dialect :: ((split lines).mapIdx fun k s => s.reslot (σ k)).flatMap FunctionSection.lines

theorem FunctionSection.reslot_id (s : FunctionSection) : s.reslot id = s := by
  rw [reslot, List.map_congr_left fun line _ => line.reslot_id, List.map_id']

/-- The function `f'` has the name of `f`, a frame of the same size, and the same variables, each in
the slot that `σ` makes of its slot in `f`. -/
structure Function.Reslots (σ : Nat → Nat) (f f' : Function) : Prop where
  name : f'.name = f.name
  frameSize : f'.frameSize = f.frameSize
  names : f'.frame.names.Perm f.frame.names
  bijOn : Set.BijOn σ f.frame.offsets f'.frame.offsets
  offset : ∀ x ∈ f.frame.names, f'.frame.offset x = σ (f.frame.offset x)

/-- Only the slots of the function with the index `k` are exchanged. -/
def onlyAt (k : Nat) (σ : Nat → Nat) (i : Nat) : Nat → Nat :=
  if i = k then σ else id

namespace Function

theorem Reslots.refl (f : Function) : f.Reslots id f where
  name := rfl
  frameSize := rfl
  names := .refl _
  bijOn := Set.bijOn_id _
  offset _ _ := rfl

theorem Reslots.relocate {σ : Nat → Nat} {f f' : Function} (h : f.Reslots σ f') (g : Nat → Nat) :
    f.Reslots σ (f'.relocate g) where
  name := h.name
  frameSize := h.frameSize
  names := h.names
  bijOn := h.bijOn
  offset := h.offset

/-- A function bound to a frame with the same names has its variables in the slots of this frame. -/
theorem Alike.reslots {f f' : Function} (h : (f.rename id f'.frame).Alike f') (bound : f.Bound)
    (perm : f'.frame.names.Perm f.frame.names) :
    f.Reslots (f.frame.transfer f'.frame) f' where
  name := h.name_eq
  frameSize := h.frameSize_eq.trans ((Frame.size_of_perm perm).trans bound.frameSize.symm)
  names := perm
  bijOn := Frame.bijOn_transfer perm
  offset _ hx := (Frame.transfer_offset hx).symm

end Function

namespace Program

variable {fs gs : Program} {f : Function} {frame : Frame} {s s' : Label.Supply} {lines : Listing}

theorem demandsAfter_rebound (frame : Frame) (earlier : List String) :
    demandsAfter earlier (fs ++ f.rename id frame :: gs) =
      demandsAfter earlier (fs ++ f :: gs) := by
  induction fs generalizing earlier with
  | nil =>
    rw [List.nil_append, List.nil_append, demandsAfter, demandsAfter, f.demands_rename]
    rfl
  | cons g fs ih =>
    rw [List.cons_append, List.cons_append, demandsAfter, demandsAfter, ih]

theorem admission_rebound (frame : Frame) (s : Label.Supply) :
    admission (fs ++ f.rename id frame :: gs) s = admission (fs ++ f :: gs) s := by
  rw [admission_eq, admission_eq, demands, demands, demandsAfter_rebound]

/-- The section of a function with the slots exchanged in its body. -/
theorem sectionAt_rebound {σ : Nat → Nat} (bound : f.Bound)
    (h : f.frame.Reslots id frame.offset σ) (size : frame.size = f.frame.size) (number : Nat) :
    (f.rename id frame).sectionAt number = (f.sectionAt number).reslot σ := by
  have code := f.code_rename bound h size number
  rw [Function.code_eq_lines, Function.code_eq_lines] at code
  exact congrArg (FunctionSection.mk f.name) (List.tail_eq_of_cons_eq code)

theorem sectionsAt_rebound {σ : Nat → Nat} (bound : f.Bound)
    (h : f.frame.Reslots id frame.offset σ) (size : frame.size = f.frame.size) (number : Nat) :
    sectionsAt number (fs ++ f.rename id frame :: gs) =
      (sectionsAt number (fs ++ f :: gs)).mapIdx fun k s =>
        s.reslot (onlyAt fs.length σ k) := by
  induction fs generalizing number with
  | nil =>
    have labels : (f.rename id frame).labels = f.labels := labels_renameBlock _ _ f.body
    rw [List.nil_append, List.nil_append, sectionsAt, sectionsAt, List.mapIdx_cons, labels,
      sectionAt_rebound bound h size]
    congr 1
    refine (List.mapIdx_eq_iff.mpr fun k => ?_).symm
    simp [onlyAt, FunctionSection.reslot_id]
  | cons g fs ih =>
    rw [List.cons_append, List.cons_append, sectionsAt, sectionsAt, List.mapIdx_cons, ih]
    congr 1
    · exact (FunctionSection.reslot_id _).symm
    · simp [onlyAt]

theorem listing_rebound {σ : Nat → Nat} (bound : f.Bound)
    (h : f.frame.Reslots id frame.offset σ) (size : frame.size = f.frame.size) (number : Nat) :
    listing number (fs ++ f.rename id frame :: gs) =
      (listing number (fs ++ f :: gs)).reslot (onlyAt fs.length σ) := by
  rw [Listing.reslot, split_listing, listing, ← lines_sectionsAt, sectionsAt_rebound bound h size]

/-- A program in which one function is bound to another frame has the same listing up to the slots
of this function, or none if the original has none. -/
theorem generate_rebound {σ : Nat → Nat} (bound : f.Bound)
    (h : f.frame.Reslots id frame.offset σ) (size : frame.size = f.frame.size) :
    generate (fs ++ f.rename id frame :: gs) s = (.ok lines, s') ↔
      ∃ old, generate (fs ++ f :: gs) s = (.ok old, s') ∧
        lines = old.reslot (onlyAt fs.length σ) := by
  rw [generate_eq, generate_eq, admission_rebound, listing_rebound bound h size]
  cases admission (fs ++ f :: gs) s with
  | error refusal => simp
  | ok rest => simp [and_comm, eq_comm]

/-- A program in which one function is bound to its own frame has the same listing. -/
theorem generate_rebound_self (bound : f.Bound) :
    generate (fs ++ f.rename id f.frame :: gs) s = (.ok lines, s') ↔
      generate (fs ++ f :: gs) s = (.ok lines, s') := by
  have slots : f.frame.Reslots id f.frame.offset id := fun _ _ => rfl
  have same : sectionsAt s.taken (fs ++ f.rename id f.frame :: gs) =
      sectionsAt s.taken (fs ++ f :: gs) := by
    rw [sectionsAt_rebound bound slots rfl]
    refine List.mapIdx_eq_iff.mpr fun k => ?_
    simp [onlyAt, FunctionSection.reslot_id]
  rw [generate_eq, generate_eq, admission_rebound, listing, listing, ← lines_sectionsAt,
    ← lines_sectionsAt, same]

/-- Functions that look alike can stand for each other. -/
theorem generate_of_alike {f' : Function} (h : f.Alike f') :
    generate (fs ++ f' :: gs) s = (.ok lines, s') ↔
      generate (fs ++ f :: gs) s = (.ok lines, s') := by
  have same : (fs ++ f' :: gs : Program).relocate nowhere =
      (fs ++ f :: gs : Program).relocate nowhere := by
    unfold relocate
    rw [List.map_append, List.map_append, List.map_cons, List.map_cons, h]
  rw [← @generate_relocate_eq_ok _ _ _ _ nowhere, same, generate_relocate_eq_ok]

theorem reslots_of_getElem? {σ : Nat → Nat} {f' g g' : Function} (h : f.Reslots σ f') {k : Nat}
    (hg : (fs ++ f :: gs)[k]? = some g) (hg' : (fs ++ f' :: gs)[k]? = some g') :
    g.Reslots (onlyAt fs.length σ k) g' := by
  unfold onlyAt
  rcases Nat.lt_trichotomy k fs.length with before | rfl | behind
  · rw [List.getElem?_append_left before] at hg hg'
    rw [if_neg (Nat.ne_of_lt before), Option.some.inj (hg.symm.trans hg')]
    exact .refl g'
  · simp only [List.getElem?_append_right (Nat.le_refl _), Nat.sub_self, List.getElem?_cons_zero,
      Option.some.injEq] at hg hg'
    rw [if_pos rfl, ← hg, ← hg']
    exact h
  · obtain ⟨i, rfl⟩ := Nat.exists_eq_add_of_lt behind
    have index : fs.length + i + 1 - fs.length = i + 1 := by omega
    rw [List.getElem?_append_right (Nat.le_of_lt behind), index, List.getElem?_cons_succ] at hg hg'
    rw [if_neg (Nat.ne_of_gt behind), Option.some.inj (hg.symm.trans hg')]
    exact .refl g'

end Program

end StackCompiler
