/-!
# Memory of the machine

Memory holds a byte at every address of 64 bits. Programs read and write whole words, lowest byte
first.

The main statements are these.
* A word that was written is read back (`read_write_same`).
* What an aligned word reads depends on its own eight bytes only (`read_congr`).
* A write does not change aligned words at other addresses (`read_write_apart`).
-/

namespace StackCompiler

/-- A machine word: a number of 64 bits, or an address. -/
abbrev Word := BitVec 64

/-- The contents of memory, byte by byte. -/
abbrev Memory := Word → BitVec 8

namespace Memory

/-- The word at the address `a`. -/
def read (m : Memory) (a : Word) : Word :=
  m (a + 7) ++ m (a + 6) ++ m (a + 5) ++ m (a + 4) ++ m (a + 3) ++ m (a + 2) ++ m (a + 1) ++ m a

/-- The memory in which the word at the address `a` is `v`. -/
def write (m : Memory) (a v : Word) : Memory := fun x =>
  if x - a < 8 then v.extractLsb' (8 * (x - a).toNat) 8 else m x

/-- A word is made up of its eight bytes. -/
theorem append_bytes (v : Word) :
    v.extractLsb' 56 8 ++ v.extractLsb' 48 8 ++ v.extractLsb' 40 8 ++ v.extractLsb' 32 8
      ++ v.extractLsb' 24 8 ++ v.extractLsb' 16 8 ++ v.extractLsb' 8 8
      ++ v.extractLsb' 0 8 = v := by
  ext i hi
  simp only [BitVec.getElem_append, BitVec.getElem_extractLsb']
  repeat' split
  all_goals
    rw [← BitVec.getLsbD_eq_getElem]
    congr 1
    omega

/-- The bytes of a word that was written. -/
theorem write_byte (m : Memory) (a v : Word) (i : Word) (hi : i < 8) :
    write m a v (a + i) = v.extractLsb' (8 * i.toNat) 8 := by
  have offset : a + i - a = i := by bv_omega
  simp only [write, offset, if_pos hi]

/-- A word that was written is read back. -/
theorem read_write_same (m : Memory) (a v : Word) : (m.write a v).read a = v := by
  have lowest : write m a v a = v.extractLsb' 0 8 := by simpa using write_byte m a v 0 (by decide)
  unfold read
  rw [write_byte _ _ _ 7 (by decide), write_byte _ _ _ 6 (by decide),
    write_byte _ _ _ 5 (by decide), write_byte _ _ _ 4 (by decide),
    write_byte _ _ _ 3 (by decide), write_byte _ _ _ 2 (by decide),
    write_byte _ _ _ 1 (by decide), lowest]
  exact append_bytes v

/-- A write leaves the bytes outside of its word alone. -/
theorem write_outside {m : Memory} {a v x : Word} (aligned : a.toNat % 8 = 0)
    (apart : x.toNat < a.toNat ∨ a.toNat + 8 ≤ x.toNat) : m.write a v x = m x := by
  have outside : ¬ x - a < 8 := by bv_omega
  simp only [write, if_neg outside]

/-- A write leaves everything above its word alone. -/
theorem write_above {m : Memory} {a v x : Word} (above : a.toNat + 8 ≤ x.toNat) :
    m.write a v x = m x := by
  have outside : ¬ x - a < 8 := by bv_omega
  simp only [write, if_neg outside]

/-- What a word reads depends on its own eight bytes only. -/
theorem read_congr {m m' : Memory} {a : Word} (aligned : a.toNat % 8 = 0)
    (same : ∀ x : Word, a.toNat ≤ x.toNat → x.toNat < a.toNat + 8 → m' x = m x) :
    m'.read a = m.read a := by
  have byte : ∀ i : Word, i < 8 → m' (a + i) = m (a + i) := by
    intro i hi
    apply same <;> bv_omega
  have lowest : m' a = m a := by
    apply same <;> omega
  unfold read
  rw [byte 7 (by decide), byte 6 (by decide), byte 5 (by decide), byte 4 (by decide),
    byte 3 (by decide), byte 2 (by decide), byte 1 (by decide), lowest]

/-- A write does not change the words at other addresses. -/
theorem read_write_apart {m : Memory} {a b v : Word} (ha : a.toNat % 8 = 0) (hb : b.toNat % 8 = 0)
    (apart : a.toNat ≠ b.toNat) : (m.write a v).read b = m.read b := by
  apply read_congr hb
  intro x low high
  exact write_outside ha (by omega)

end Memory

end StackCompiler
