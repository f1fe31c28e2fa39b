import Mathlib
import StackCompiler.Proofs.Binding
import StackCompiler.Proofs.Parsing
import StackCompiler.Proofs.Uses

/-!
# Slots of variables

Which slots the variables of a program from a source have. The parameters of a function come
first, and its other variables follow in the order in which they are first used. Every use of a
name has the slot that the finished frame has for it, although the frame was still growing when
the use was met.

Main statement: the frame of every function is made up like that, and holds nothing else
(`Program.slotted_of_ofSource`).
-/

namespace StackCompiler

/-! ## 1. Names in the order of their uses -/

/-- The name `x` is used at a place before all places where `y` is used. -/
def UsedBefore (us : List Use) (x y : String) : Prop :=
  ∃ u ∈ us, u.name = x ∧ ∀ v ∈ us, v.name = y → u.loc < v.loc

/-- A use of a third name changes nothing. -/
theorem UsedBefore.cons {us : List Use} {x y : String} {u : Use} (h : UsedBefore us x y)
    (ne : u.name ≠ y) : UsedBefore (u :: us) x y := by
  obtain ⟨v, hv, name, first⟩ := h
  refine ⟨v, List.mem_cons_of_mem _ hv, name, List.forall_mem_cons.mpr ⟨?_, first⟩⟩
  intro same
  exact absurd same ne

namespace Frame

theorem names_foldl_of_nodup {names : List String} {f : Frame}
    (distinct : (f.names ++ names).Nodup) : (names.foldl insert f).names = f.names ++ names := by
  induction names generalizing f with
  | nil => exact (List.append_nil _).symm
  | cons x names ih =>
    have fresh : x ∉ f.names := fun mem =>
      (List.nodup_append.mp distinct).2.2 x mem x List.mem_cons_self rfl
    have grown : (f.insert x).names = f.names ++ [x] := names_insert_of_not_mem fresh
    rw [List.foldl_cons, ih (by rwa [grown, List.append_assoc]), grown, List.append_assoc]
    rfl

/-- Claiming names in the order of their uses adds those that are new, each where it is used
first. -/
theorem exists_names_foldl {us : List Use} (ordered : us.Pairwise fun u v => u.loc < v.loc)
    (f : Frame) :
    ∃ others, ((us.map Use.name).foldl insert f).names = f.names ++ others ∧
      (∀ x, x ∈ others ↔ x ∉ f.names ∧ x ∈ us.map Use.name) ∧
      others.Pairwise (UsedBefore us) := by
  induction us generalizing f with
  | nil => exact ⟨[], by simp, by simp, .nil⟩
  | cons u us ih =>
    obtain ⟨before, ordered⟩ := List.pairwise_cons.mp ordered
    obtain ⟨others, names, mem, first⟩ := ih ordered (f.insert u.name)
    have old {y : String} (hy : y ∈ others) : u.name ≠ y := by
      rintro rfl
      exact ((mem _).mp hy).1 (mem_names_insert.mpr (.inr rfl))
    have later : others.Pairwise (UsedBefore (u :: us)) :=
      first.imp_of_mem fun _ hy h => h.cons (old hy)
    by_cases known : u.name ∈ f.names
    · refine ⟨others, ?_, fun x => ?_, later⟩
      · rw [List.map_cons, List.foldl_cons, names, names_insert_of_mem known]
      · rw [mem, names_insert_of_mem known, List.map_cons, List.mem_cons]
        refine and_congr_right fun fresh => (or_iff_right ?_).symm
        rintro rfl
        exact fresh known
    · have grown := names_insert_of_not_mem known
      refine ⟨u.name :: others, ?_, fun x => ?_, .cons ?_ later⟩
      · rw [List.map_cons, List.foldl_cons, names, grown, List.append_assoc]
        rfl
      · rw [List.mem_cons, mem, mem_names_insert, List.map_cons, List.mem_cons]
        by_cases same : x = u.name
        · simp [same, known]
        · simp [same]
      · intro y hy
        refine ⟨u, List.mem_cons_self, rfl,
          List.forall_mem_cons.mpr ⟨?_, fun v hv _ => before v hv⟩⟩
        intro same
        exact absurd same (old hy)

theorem find?_of_mem {f : Frame} {name : String} (h : name ∈ f.names) :
    f.find? name = some ⟨name, f.offset name⟩ := by
  simp [find?, h]

theorem getElem?_slots (f : Frame) (i : Nat) :
    f.slots[i]? = f.names[i]?.map fun name => ⟨name, wordSize * (i + 1)⟩ := by
  simp [slots, List.getElem?_map, List.getElem?_zipIdx, Option.map_map, Function.comp_def]

/-- The table of slots lists every name with its slot. -/
theorem slots_eq (f : Frame) : f.slots = f.names.map fun name => ⟨name, f.offset name⟩ := by
  refine List.ext_getElem? fun i => ?_
  rw [getElem?_slots, List.getElem?_map]
  cases at_i : f.names[i]? with
  | none => rfl
  | some name =>
    obtain ⟨lt, rfl⟩ := List.getElem?_eq_some_iff.mp at_i
    rw [Option.map_some, Option.map_some, offset, f.distinct.idxOf_getElem]

theorem map_name_slots (f : Frame) : f.slots.map Slot.name = f.names := by
  rw [slots_eq, List.map_map]
  exact List.map_id' _

end Frame

/-! ## 2. Slots of a function -/

namespace Function

/-- A variable of this name is used in the body of the function. -/
def Mentions (f : Function) (x : String) : Prop :=
  ∃ offset loc, .var x offset loc ∈ f.exprs

/-- The name `x` is used in the body of the function at a place before all places where `y` is. -/
def MentionsBefore (f : Function) (x y : String) : Prop :=
  ∃ offset loc, .var x offset loc ∈ f.exprs ∧
    ∀ offset' loc', .var y offset' loc' ∈ f.exprs → loc < loc'

/-- The slots of a function that stands in `source` are given out in the order of the text. -/
structure Slotted (source : String) (f : Function) : Prop where
  /-- Parameters come first, and the other names used in the body follow, each before those that
  are first used later. There are no other names. -/
  order : ∃ others, f.frame.slots.map Slot.name = f.params.map Slot.name ++ others ∧
    (∀ x, x ∈ others ↔ x ∉ f.params.map Slot.name ∧ f.Mentions x) ∧
    others.Pairwise f.MentionsBefore
  distinct : (f.frame.slots.map Slot.name).Nodup
  offsets : ∀ i slot, f.frame.slots[i]? = some slot → slot.offset = 8 * (i + 1)
  /-- Parameters are stored in the slots that they have. -/
  params : f.params = f.frame.slots.take f.params.length
  /-- Every use of a name has the slot of that name. -/
  uses : ∀ name offset loc, .var name offset loc ∈ f.exprs →
    f.frame.find? name = some ⟨name, offset⟩ ∧ ⟨name, offset⟩ ∈ f.frame.slots
  /-- The place of a use is where the text has its name. -/
  placed : ∀ name offset loc, .var name offset loc ∈ f.exprs →
    Text.slice? loc name.utf8ByteSize source.toList = some name.toList
  size : f.frameSize = 8 * f.frame.slots.length

end Function

namespace Grammar

/-- The tokens of a function are among those of its program. -/
theorem Program.exists_definition {ts : List Token} {p : StackCompiler.Program}
    (h : Program ts p) {f : Function} (hf : f ∈ p) : ∃ us, us.Sublist ts ∧ Definition us f := by
  induction h with
  | nil => cases hf
  | cons first _ ih =>
    rcases List.mem_cons.mp hf with rfl | hf
    · exact ⟨_, List.sublist_append_left .., first⟩
    · obtain ⟨us, sub, definition⟩ := ih hf
      exact ⟨us, sub.trans (List.sublist_append_right ..), definition⟩

end Grammar

/-- The text of a token is found at its place. -/
theorem Token.IsPlaced.slice? {source text : String} {t : Token} (h : t.IsPlaced source)
    (spelled : t.text = some text) :
    Text.slice? t.loc text.utf8ByteSize source.toList = some text.toList := by
  obtain ⟨before, chars, after, split, loc, same, -⟩ := h
  cases spelled.symm.trans same
  rw [Text.slice?_eq_some_iff, String.toList_ofList]
  exact ⟨before, after, split, loc, Text.byteSize_eq_utf8ByteSize _⟩

theorem Function.mem_exprs_iff {f : Function} {us : List Use}
    (same : (us.map (Use.expr f.frame.offset)).Perm (f.exprs.filter Expr.isVariable))
    {name : String} {offset loc : Nat} :
    .var name offset loc ∈ f.exprs ↔ ⟨name, loc⟩ ∈ us ∧ offset = f.frame.offset name := by
  have filtered : .var name offset loc ∈ f.exprs ↔
      .var name offset loc ∈ f.exprs.filter Expr.isVariable := by
    simp [Expr.isVariable]
  rw [filtered, ← same.mem_iff, List.mem_map]
  constructor
  · rintro ⟨u, hu, heq⟩
    cases heq
    exact ⟨hu, rfl⟩
  · rintro ⟨hu, rfl⟩
    exact ⟨_, hu, rfl⟩

/-- The frame of a function is made up of its parameters and of the uses in its body. -/
theorem Function.exists_others {f : Function} {us : List Use}
    (same : (us.map (Use.expr f.frame.offset)).Perm (f.exprs.filter Expr.isVariable))
    (ordered : us.Pairwise fun u v => u.loc < v.loc) (distinct : f.ParamsDistinct)
    (frame : f.frame = Frame.ofNames (f.params.map Slot.name ++ us.map Use.name)) :
    ∃ others, f.frame.names = f.params.map Slot.name ++ others ∧
      (∀ x, x ∈ others ↔ x ∉ f.params.map Slot.name ∧ f.Mentions x) ∧
      others.Pairwise f.MentionsBefore := by
  let start := (f.params.map Slot.name).foldl Frame.insert .empty
  have params : start.names = f.params.map Slot.name := Frame.names_foldl_of_nodup distinct
  have grown : f.frame = (us.map Use.name).foldl Frame.insert start := by
    rw [frame, Frame.ofNames, List.foldl_append]
  have mentioned (x : String) : x ∈ us.map Use.name ↔ f.Mentions x := by
    constructor
    · intro hx
      obtain ⟨u, hu, rfl⟩ := List.mem_map.mp hx
      exact ⟨_, u.loc, (f.mem_exprs_iff same).mpr ⟨hu, rfl⟩⟩
    · rintro ⟨offset, loc, mem⟩
      exact List.mem_map_of_mem ((f.mem_exprs_iff same).mp mem).1
  have sooner {x y : String} : UsedBefore us x y → f.MentionsBefore x y := by
    rintro ⟨u, hu, rfl, first⟩
    refine ⟨_, u.loc, (f.mem_exprs_iff same).mpr ⟨hu, rfl⟩, fun offset loc mem => ?_⟩
    exact first _ ((f.mem_exprs_iff same).mp mem).1 rfl
  obtain ⟨others, names, mem, first⟩ := Frame.exists_names_foldl ordered start
  rw [← grown, params] at names
  refine ⟨others, names, fun x => ?_, first.imp sooner⟩
  rw [mem, params, mentioned]

/-- The slots of a program from a source are given out in the order of the text, for each function
by itself. -/
theorem Program.slotted_of_ofSource {source : String} {p : Program}
    (h : Program.ofSource source = .ok p) : ∀ f ∈ p, f.Slotted source := by
  intro f hf
  obtain ⟨tokens, lexes, derivation, distinct, -⟩ := exists_derivation h
  obtain ⟨us, sub, definition⟩ := derivation.exists_definition hf
  obtain ⟨body, sub', same, frame⟩ := definition.uses_body
  have inside : body.Sublist tokens := sub'.trans sub
  have ordered : (Grammar.uses body).Pairwise fun u v => u.loc < v.loc := by
    rw [← List.pairwise_map]
    refine .sublist ((Grammar.locs_uses_sublist body).trans (inside.map Token.loc)) ?_
    rw [List.pairwise_map]
    exact lexes.pairwise_loc
  obtain ⟨others, names, mem, first⟩ := f.exists_others same ordered (distinct f hf) frame
  have bound := bound_of_ofSource h f hf
  constructor
  · rw [f.frame.map_name_slots]
    exact ⟨others, names, mem, first⟩
  · rw [f.frame.map_name_slots]
    exact f.frame.distinct
  · intro i slot at_i
    rw [Frame.getElem?_slots] at at_i
    obtain ⟨name, -, rfl⟩ := Option.map_eq_some_iff.mp at_i
    rfl
  · have slots : (f.params.map Slot.name).map (fun name => ⟨name, f.frame.offset name⟩) =
        f.params := by
      rw [List.map_map]
      refine (List.map_congr_left fun param hp => ?_).trans (List.map_id _)
      exact congrArg (Slot.mk param.name) (bound.params param hp).2.symm
    rw [Frame.slots_eq, names, List.map_append, slots, List.take_left]
  · intro name offset loc use
    obtain ⟨hu, rfl⟩ := (f.mem_exprs_iff same).mp use
    have known : name ∈ f.frame.names := by
      rw [frame, Frame.mem_names_ofNames]
      exact List.mem_append_right _ (List.mem_map_of_mem hu)
    rw [Frame.find?_of_mem known, Frame.slots_eq]
    exact ⟨rfl, List.mem_map_of_mem known⟩
  · intro name offset loc use
    obtain ⟨hu, -⟩ := (f.mem_exprs_iff same).mp use
    obtain ⟨t, ht, text, rfl⟩ := Grammar.exists_token_of_mem_uses hu
    exact (lexes.placed t (inside.subset ht)).slice? text
  · rw [bound.frameSize, Frame.size, Frame.length, ← f.frame.map_name_slots, List.length_map]
    rfl

/-- The function `f(b){return c>g(a,b);}`. Its comparison has the sides exchanged, and yet `c` has
its slot before `a`. -/
def comparing : Function :=
  { name := "f"
    loc := 0
    params := [⟨"b", 8⟩]
    body := [.ret (.binary .lt (.call "g" [.var "a" 24 16, .var "b" 8 18] 14) (.var "c" 16 12))]
    frame := .ofNames ["b", "c", "a"]
    frameSize := 24 }

theorem comparing_slotted :
    Program.ofSource "f(b){return c>g(a,b);}" = .ok [comparing] ∧
      comparing.frame.slots = [⟨"b", 8⟩, ⟨"c", 16⟩, ⟨"a", 24⟩] ∧
      comparing.Slotted "f(b){return c>g(a,b);}" := by
  have read : Program.ofSource "f(b){return c>g(a,b);}" = .ok [comparing] := by cbv
  exact ⟨read, rfl, Program.slotted_of_ofSource read comparing List.mem_cons_self⟩

end StackCompiler
