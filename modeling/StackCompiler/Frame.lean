/-!
# Stack frames

A function keeps each of its variables in a slot of its stack frame, one machine word below the
one before. Slots are given out in the order in which names are first used, so a frame is
determined by the list of its names. An offset, once given out, never changes.

The main statements are these.
* Claiming a name adds it behind the others, or changes nothing if it is there
  (`names_insert_of_mem`, `names_insert_of_not_mem`).
* A name is in the frame exactly if it can be found there (`find?_isSome_iff`).
-/

namespace StackCompiler

/-- The size of a machine word in bytes. -/
def wordSize : Nat := 8

theorem nodup_append_singleton {names : List String} {name : String} (distinct : names.Nodup)
    (fresh : name ∉ names) : (names ++ [name]).Nodup := by
  rw [List.nodup_append]
  refine ⟨distinct, List.pairwise_singleton _ _, ?_⟩
  intro a ha b hb hab
  rw [List.mem_singleton] at hb
  exact fresh (hb ▸ hab ▸ ha)

/-- A named stack slot. Its word lies `offset` bytes below the frame's base. -/
structure Slot where
  name : String
  offset : Nat
  deriving Repr, DecidableEq

/-- The variables of a function in the order of their slots. -/
structure Frame where
  names : List String
  distinct : names.Nodup
  deriving Repr, DecidableEq

namespace Frame

/-- The frame of a function that has not used any variable. -/
def empty : Frame :=
  ⟨[], List.nodup_nil⟩

/-- The number of slots. -/
def length (f : Frame) : Nat :=
  f.names.length

/-- Whether no slot is taken. -/
def isEmpty (f : Frame) : Bool :=
  f.names.isEmpty

/-- The number of bytes that all slots take up together. -/
def size (f : Frame) : Nat :=
  wordSize * f.length

/-- The offset of the slot of `name`, or, if it has none, of the slot that it would get. -/
def offset (f : Frame) (name : String) : Nat :=
  wordSize * (f.names.idxOf name + 1)

/-- The slot of `name`, if it has one. -/
def find? (f : Frame) (name : String) : Option Slot :=
  if f.names.contains name then some ⟨name, f.offset name⟩ else none

/-- The frame in which `name` has a slot: the next free one, unless it had one before. -/
def insert (f : Frame) (name : String) : Frame :=
  if h : name ∈ f.names then f
  else ⟨f.names ++ [name], nodup_append_singleton f.distinct h⟩

/-- The offset of the slot of `name`, and the frame in which it has that slot. -/
def resolve (f : Frame) (name : String) : Nat × Frame :=
  (f.offset name, f.insert name)

/-- The frame in which all of `names` have slots, in the order of their first occurrences. -/
def ofNames (names : List String) : Frame :=
  names.foldl insert empty

/-- The slots in the order in which they were given out. -/
def slots (f : Frame) : List Slot :=
  f.names.zipIdx.map fun (name, index) => ⟨name, wordSize * (index + 1)⟩

theorem names_insert_of_mem {f : Frame} {name : String} (h : name ∈ f.names) :
    (f.insert name).names = f.names := by
  simp [insert, h]

theorem names_insert_of_not_mem {f : Frame} {name : String} (h : name ∉ f.names) :
    (f.insert name).names = f.names ++ [name] := by
  simp [insert, h]

theorem find?_isSome_iff {f : Frame} {name : String} :
    (f.find? name).isSome ↔ name ∈ f.names := by
  simp [find?]

end Frame

end StackCompiler
