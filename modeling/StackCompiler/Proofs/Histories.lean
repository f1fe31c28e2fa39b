import Mathlib
import StackCompiler.Proofs.Slots

/-!
# Frames under any use

A frame is asked for names again and again, in any order. Resolving a name gives it a slot if it has
none, and looking a name up changes nothing. Whatever was asked before, the frame holds the names
resolved so far, each at the place where it came first.

A frame computes the offset of a name from its place. A table that is kept entry by entry stores the
offset instead, searches its entries for the name, and takes the next offset from the number of
entries it has. At every moment the two say the same, so that neither the stored offsets nor the
size of the table drift away from the names.

The main statements are these.
* A table of entries does what the frame does (`Frame.find?_table`, `Frame.resolve_table`).
* After any calls, all that a frame answers is told by the names resolved so far
  (`Frame.after_exact`).
-/

namespace StackCompiler

/-! ## 1. The order of names -/

/-- The place of `x` in the order in which the different names of a list come first, counted from
one. A name that is not in the list has the place behind all others. -/
def rank (names : List String) (x : String) : Nat :=
  (names.takeWhile (· ≠ x)).toFinset.card + 1

theorem rank_of_not_mem {names : List String} {x : String} (h : x ∉ names) :
    rank names x = names.toFinset.card + 1 := by
  have all : names.takeWhile (· ≠ x) = names := by
    rw [List.takeWhile_eq_self_iff]
    intro y hy
    exact decide_eq_true fun same => h (same ▸ hy)
  rw [rank, all]

theorem rank_append_cons {before : List String} {x : String} (h : x ∉ before)
    (more : List String) : rank (before ++ x :: more) x = rank before x := by
  have differ : ∀ y ∈ before, decide (y ≠ x) = true := fun y hy =>
    decide_eq_true fun same => h (same ▸ hy)
  rw [rank, rank, List.takeWhile_append_of_pos differ, List.takeWhile_cons_of_neg (by simp),
    List.append_nil, List.takeWhile_eq_self_iff.mpr differ]

/-- Names that come behind the first `x` do not change the place of `x`. -/
theorem rank_append {names : List String} {x : String} (h : x ∈ names) (more : List String) :
    rank (names ++ more) x = rank names x := by
  obtain ⟨before, behind, rfl, fresh⟩ := List.eq_append_cons_of_mem h
  rw [List.append_assoc, List.cons_append, rank_append_cons fresh, rank_append_cons fresh]

namespace Frame

theorem length_ofNames (names : List String) : (ofNames names).length = names.toFinset.card := by
  have same : (ofNames names).names.toFinset = names.toFinset := by
    ext x
    rw [List.mem_toFinset, List.mem_toFinset, mem_names_ofNames]
  rw [length, ← same, List.toFinset_card_of_nodup (ofNames names).distinct]

/-- The name that is missing gets the next slot. -/
theorem offset_of_not_mem {f : Frame} {x : String} (h : x ∉ f.names) :
    f.offset x = wordSize * (f.length + 1) := by
  rw [offset, length, List.idxOf_eq_length_iff.mpr h]

/-- The slots of a frame are in the order in which its names came first. -/
theorem offset_ofNames (names : List String) (x : String) :
    (ofNames names).offset x = wordSize * rank names x := by
  by_cases known : x ∈ names
  · obtain ⟨before, behind, rfl, fresh⟩ := List.eq_append_cons_of_mem known
    have missing : x ∉ (ofNames before).names := fun h => fresh (mem_names_ofNames.mp h)
    obtain ⟨more, names⟩ := prefix_names_foldl behind ((ofNames before).insert x)
    have grown : (ofNames (before ++ x :: behind)).names = (ofNames before).names ++ x :: more := by
      rw [ofNames, List.foldl_append, List.foldl_cons, ← ofNames, ← names,
        names_insert_of_not_mem missing, List.append_assoc]
      rfl
    rw [offset, grown, List.idxOf_append_of_notMem missing, List.idxOf_cons_self,
      rank_append_cons fresh, rank_of_not_mem fresh, ← length_ofNames]
    rfl
  · rw [offset_of_not_mem fun h => known (mem_names_ofNames.mp h), rank_of_not_mem known,
      length_ofNames]

/-! ## 2. Tables of entries -/

theorem slots_insert_of_not_mem {f : Frame} {x : String} (h : x ∉ f.names) :
    (f.insert x).slots = f.slots ++ [⟨x, wordSize * (f.length + 1)⟩] := by
  rw [slots, names_insert_of_not_mem h, List.zipIdx_append, List.map_append]
  simp [slots, length]

theorem length_slots (f : Frame) : f.slots.length = f.length := by
  rw [length, ← map_name_slots, List.length_map]

/-- The offsets of the slots are the multiples of a word, from one word up to the size. -/
theorem offsets_slots (f : Frame) :
    f.slots.map Slot.offset = List.range' wordSize f.length wordSize := by
  refine List.ext_getElem (by simp [length_slots]) fun i hi _ => ?_
  simp [slots, Nat.mul_add, Nat.add_comm]

theorem prefix_slots {f g : Frame} (h : f.names <+: g.names) : f.slots <+: g.slots := by
  obtain ⟨more, grown⟩ := h
  rw [slots, slots, ← grown, List.zipIdx_append, List.map_append]
  exact List.prefix_append ..

end Frame

/-- A table of slots that is kept entry by entry. -/
structure Table where
  entries : List Slot

namespace Table

/-- The first entry under a name. -/
def find? (t : Table) (name : String) : Option Slot :=
  t.entries.find? fun entry => entry.name == name

/-- The offset stored under a name. If none is, an entry with the next offset is added. -/
def resolve (t : Table) (name : String) : Nat × Table :=
  match t.find? name with
  | some entry => (entry.offset, t)
  | none =>
    let offset := (t.entries.length + 1) * wordSize
    (offset, ⟨t.entries ++ [⟨name, offset⟩]⟩)

/-- The number of bytes that all entries take up together. -/
def size (t : Table) : Nat :=
  t.entries.length * wordSize

end Table

namespace Frame

/-- The slots of a frame as a table of entries. -/
def table (f : Frame) : Table :=
  ⟨f.slots⟩

theorem find?_table (f : Frame) (x : String) : f.table.find? x = f.find? x := by
  rw [Table.find?, table, slots_eq, List.find?_map]
  cases found : f.names.find? ((fun entry : Slot => entry.name == x) ∘ fun name =>
      ⟨name, f.offset name⟩) with
  | none =>
    have missing : x ∉ f.names := fun h => by simpa using List.find?_eq_none.mp found x h
    simp [find?, missing]
  | some y =>
    obtain rfl : y = x := by simpa using List.find?_some found
    rw [find?_of_mem (List.mem_of_find?_eq_some found), Option.map_some]

theorem resolve_table (f : Frame) (x : String) :
    f.table.resolve x = ((f.resolve x).1, (f.resolve x).2.table) := by
  unfold Table.resolve resolve
  rw [find?_table]
  by_cases known : x ∈ f.names
  · rw [find?_of_mem known]
    simp [insert, known]
  · have missing : f.find? x = none := by simp [find?, known]
    rw [missing, table, table, slots_insert_of_not_mem known, offset_of_not_mem known]
    dsimp only
    rw [length_slots, Nat.mul_comm]

theorem size_table (f : Frame) : f.table.size = f.size := by
  rw [Table.size, table, length_slots, Nat.mul_comm]
  rfl

/-! ## 3. Calls -/

/-- What can be asked of a frame. -/
inductive Call where
  | resolve (name : String)
  | find (name : String)
  deriving Repr, DecidableEq

/-- The name that a call resolves. -/
def Call.resolved? : Call → Option String
  | resolve name => some name
  | find _ => none

/-- The names that were resolved, in the order of the calls. -/
def resolved (calls : List Call) : List String :=
  calls.filterMap Call.resolved?

theorem resolved_append (calls more : List Call) :
    resolved (calls ++ more) = resolved calls ++ resolved more :=
  List.filterMap_append

/-- The frame that a call leaves. -/
def next (f : Frame) : Call → Frame
  | .resolve name => (f.resolve name).2
  | .find _ => f

/-- The frame that is left after some calls on an empty one. -/
def after (calls : List Call) : Frame :=
  calls.foldl next empty

theorem foldl_next (calls : List Call) (f : Frame) :
    calls.foldl next f = (resolved calls).foldl insert f := by
  induction calls generalizing f with
  | nil => rfl
  | cons call calls ih =>
    cases call with
    | resolve name => exact ih (f.insert name)
    | find name => exact ih f

/-- Only the names that were resolved matter. -/
theorem after_eq (calls : List Call) : after calls = ofNames (resolved calls) :=
  foldl_next calls empty

theorem names_after_prefix (calls more : List Call) :
    (after calls).names <+: (after (calls ++ more)).names := by
  rw [after, after, List.foldl_append, foldl_next more]
  exact prefix_names_foldl ..

end Frame

namespace Table

/-- The table that a call leaves. -/
def next (t : Table) : Frame.Call → Table
  | .resolve name => (t.resolve name).2
  | .find _ => t

/-- The table that is left after some calls on an empty one. -/
def after (calls : List Frame.Call) : Table :=
  calls.foldl next ⟨[]⟩

theorem foldl_next (calls : List Frame.Call) (f : Frame) :
    calls.foldl next f.table = (calls.foldl Frame.next f).table := by
  induction calls generalizing f with
  | nil => rfl
  | cons call calls ih =>
    rw [List.foldl_cons, List.foldl_cons, ← ih]
    cases call with
    | resolve name => rw [next, Frame.resolve_table, Frame.next]
    | find name => rfl

/-- The entries of a table are the slots of the frame that was asked the same. -/
theorem after_eq (calls : List Frame.Call) : after calls = (Frame.after calls).table :=
  foldl_next calls .empty

end Table

/-- A frame is a map of names in the order in which they are resolved first. After any calls, and
whatever calls come next:

* resolving a name answers its place in that order, in words;
* looking up a name finds it, with that same offset, exactly if it was resolved before, and leaves
  the frame as it was;
* slots once given out keep their names, offsets and places;
* there are as many slots as different names were resolved, the size is one word for each of them,
  and their offsets are the multiples of a word up to the size;
* a table that stores its entries has the same entries, answers the same and has the same size. -/
theorem Frame.after_exact (calls more : List Frame.Call) :
    (∀ x, ((Frame.after calls).resolve x).1 =
        8 * rank (Frame.resolved (calls ++ .resolve x :: more)) x) ∧
      (∀ x, (Frame.after calls).find? x =
        if x ∈ Frame.resolved calls then some ⟨x, 8 * rank (Frame.resolved (calls ++ more)) x⟩
        else none) ∧
      (∀ x, Frame.after (calls ++ [.find x]) = Frame.after calls) ∧
      (Frame.after calls).slots <+: (Frame.after (calls ++ more)).slots ∧
      (Frame.after calls).length = (Frame.resolved calls).toFinset.card ∧
      (Frame.after calls).size = 8 * (Frame.after calls).length ∧
      (Frame.after calls).slots.map Slot.offset =
        List.range' 8 (Frame.after calls).length 8 ∧
      (Table.after calls).entries = (Frame.after calls).slots ∧
      (∀ x, (Table.after calls).find? x = (Frame.after calls).find? x ∧
        ((Table.after calls).resolve x).1 = ((Frame.after calls).resolve x).1) ∧
      (Table.after calls).size = (Frame.after calls).size := by
  have names := Frame.after_eq calls
  have found {x : String} (known : x ∈ Frame.resolved calls) :
      rank (Frame.resolved (calls ++ more)) x = rank (Frame.resolved calls) x := by
    rw [Frame.resolved_append, rank_append known]
  refine ⟨fun x => ?_, fun x => ?_, fun x => ?_, Frame.prefix_slots (Frame.names_after_prefix ..),
    ?_, rfl, Frame.offsets_slots _, ?_, fun x => ⟨?_, ?_⟩, ?_⟩
  · rw [names]
    refine (Frame.offset_ofNames _ x).trans (congrArg (8 * ·) ?_)
    rw [Frame.resolved_append]
    by_cases known : x ∈ Frame.resolved calls
    · rw [rank_append known]
    · exact (rank_append_cons known _).symm
  · split
    · next known =>
      rw [Frame.find?_of_mem, found known, names, Frame.offset_ofNames]
      · rfl
      · rwa [names, Frame.mem_names_ofNames]
    · next unknown =>
      rw [← Option.not_isSome_iff_eq_none, Frame.find?_isSome_iff, names, Frame.mem_names_ofNames]
      exact unknown
  · rw [Frame.after, List.foldl_append]
    rfl
  · rw [names, Frame.length_ofNames]
  · rw [Table.after_eq]
    rfl
  · rw [Table.after_eq, Frame.find?_table]
  · rw [Table.after_eq, Frame.resolve_table]
  · rw [Table.after_eq, Frame.size_table]

end StackCompiler
