import StackCompiler.Proofs.Binding
import StackCompiler.Proofs.Machine.Execution

/-!
# Stack frames on the machine

What a state of the machine has to do with a store of variables, and what code may do to the stack
while it runs inside of a function.

A function's frame lies at a base address, with a slot for every variable below it. Operands are
pushed below the frame. A piece of code that evaluates something starts at some top of the stack
and ends with a few words more, and of the memory from the old top on it changes nothing but the
slots (`Pushed`). That relation is closed under everything that code does, so that it describes
whole runs.
-/

namespace StackCompiler

namespace Machine

/-! ## 1. Frames -/

/-- The state is inside of a function whose frame lies at `base`, and the slots hold the variables
that are set. -/
structure Inside (frame : Frame) (base : Nat) (σ : Store) (s : State) : Prop where
  rbp : (s.reg .rbp).toNat = base
  base_mod : base % 8 = 0
  top_mod : s.top % 8 = 0
  below : s.top + frame.size ≤ base
  holds : ∀ name value, σ name = some value →
    name ∈ frame.names ∧
      s.mem.read (BitVec.ofNat 64 (base - frame.offset name)) = value.toBitVec

theorem toNat_ofNat_of_le {a b : Nat} {w : Word} (h : w.toNat = b) (le : a ≤ b) :
    (BitVec.ofNat 64 a).toNat = a := by
  have := w.isLt
  rw [BitVec.toNat_ofNat, Nat.mod_eq_of_lt (by omega)]

namespace Inside

variable {frame : Frame} {base : Nat} {σ : Store} {s : State}

theorem toNat_slot (h : Inside frame base σ s) (name : String) :
    (BitVec.ofNat 64 (base - frame.offset name)).toNat = base - frame.offset name :=
  toNat_ofNat_of_le h.rbp (Nat.sub_le ..)

/-- The address that code computes for a slot. -/
theorem slot_eq (h : Inside frame base σ s) {name : String} (mem : name ∈ frame.names) :
    s.slot (frame.offset name) = BitVec.ofNat 64 (base - frame.offset name) := by
  have le := Frame.offset_le_size mem
  have below := h.below
  have fits := toNat_ofNat_of_le h.rbp (a := frame.offset name) (by omega)
  apply BitVec.eq_of_toNat_eq
  rw [h.toNat_slot, State.slot, BitVec.toNat_sub, fits, h.rbp]
  have := (s.reg .rbp).isLt
  have := h.rbp
  omega

/-- The slot of a variable that is set holds its value. -/
theorem read_slot (h : Inside frame base σ s) {name : String} {value : Int64}
    (set : σ name = some value) : s.mem.read (s.slot (frame.offset name)) = value.toBitVec := by
  obtain ⟨mem, read⟩ := h.holds name value set
  rw [h.slot_eq mem, read]

/-- Nothing below the top of the stack matters. -/
theorem above {s' : State} (h : Inside frame base σ s) (rbp : s'.reg .rbp = s.reg .rbp)
    (le : s'.top ≤ s.top) (top_mod : s'.top % 8 = 0)
    (mem : ∀ x : Word, s.top ≤ x.toNat → s'.mem x = s.mem x) : Inside frame base σ s' := by
  have below := h.below
  have base_mod := h.base_mod
  refine ⟨by rw [rbp, h.rbp], base_mod, top_mod, by omega, fun name value set => ?_⟩
  obtain ⟨listed, read⟩ := h.holds name value set
  have place := h.toNat_slot name
  have offset_le := Frame.offset_le_size listed
  have offset_mod := frame.offset_mod name
  refine ⟨listed, ?_⟩
  rw [← read]
  exact Memory.read_congr (by omega) fun x low _ => mem x (by omega)

/-- A variable is written to its slot, which is no other variable's. -/
theorem assign (h : Inside frame base σ s) {name : String} (mem : name ∈ frame.names)
    (value : Int64) : Inside frame base (σ.set name value)
      (s.poke (BitVec.ofNat 64 (base - frame.offset name)) value.toBitVec) := by
  have le := Frame.offset_le_size mem
  have mod := frame.offset_mod name
  have base_mod := h.base_mod
  have below := h.below
  have place := h.toNat_slot name
  refine ⟨h.rbp, base_mod, h.top_mod, below, fun other v set => ?_⟩
  simp only [Store.set] at set
  split at set
  · next same =>
    cases set
    subst same
    exact ⟨mem, Memory.read_write_same ..⟩
  · next ne =>
    obtain ⟨mem', read⟩ := h.holds other v set
    have le' := Frame.offset_le_size mem'
    have mod' := frame.offset_mod other
    have place' := h.toNat_slot other
    have apart : frame.offset name ≠ frame.offset other :=
      fun same => ne (Frame.offset_inj mem same).symm
    refine ⟨mem', ?_⟩
    rw [← read]
    exact Memory.read_write_apart (by omega) (by omega) (by omega)

end Inside

/-! ## 2. Memory that is kept -/

/-- From the address `low` on, nothing changed but slots of a frame of `size` bytes at `base`. -/
def Kept (low base size : Nat) (m m' : Memory) : Prop :=
  ∀ x : Word, low ≤ x.toNat → x.toNat < base - size ∨ base ≤ x.toNat → m' x = m x

namespace Kept

variable {low base size : Nat} {m m' m'' : Memory}

theorem refl (low base size : Nat) (m : Memory) : Kept low base size m m :=
  fun _ _ _ => rfl

theorem trans {low' : Nat} (h : Kept low base size m m') (h' : Kept low' base size m' m'')
    (le : low' ≤ low) : Kept low base size m m'' := by
  intro x hx outside
  rw [h' x (by omega) outside, h x hx outside]

/-- Words below do not count. -/
theorem write_below {a v : Word} (h : Kept low base size m m') (aligned : a.toNat % 8 = 0)
    (below : a.toNat + 8 ≤ low) : Kept low base size m (m'.write a v) := by
  intro x hx outside
  rw [Memory.write_outside aligned (by omega), h x hx outside]

/-- Slots may be written. -/
theorem write_slot {a v : Word} (h : Kept low base size m m') (aligned : a.toNat % 8 = 0)
    (le : base - size ≤ a.toNat) (lt : a.toNat + 8 ≤ base) :
    Kept low base size m (m'.write a v) := by
  intro x hx outside
  rw [Memory.write_outside aligned (by omega), h x hx outside]

/-- A word that is no slot still reads the same. -/
theorem read {a : Word} (h : Kept low base size m m') (aligned : a.toNat % 8 = 0)
    (le : low ≤ a.toNat) (outside : a.toNat + 8 ≤ base - size ∨ base ≤ a.toNat) :
    m'.read a = m.read a := by
  apply Memory.read_congr aligned
  intro x hx hx'
  exact h x (by omega) (by omega)

end Kept

/-! ## 3. Words on the stack -/

/-- The words that stand from the address `a` on, the lowest first. -/
def Stacked (m : Memory) : Nat → List Word → Prop
  | _, [] => True
  | a, w :: ws => m.read (BitVec.ofNat 64 a) = w ∧ Stacked m (a + 8) ws

theorem Stacked.append {m : Memory} {a : Nat} {ws ws' : List Word} (h : Stacked m a ws)
    (h' : Stacked m (a + 8 * ws.length) ws') : Stacked m a (ws ++ ws') := by
  induction ws generalizing a with
  | nil => exact h'
  | cons w ws ih =>
    refine ⟨h.1, ih h.2 ?_⟩
    rw [List.length_cons] at h'
    rwa [show a + 8 + 8 * ws.length = a + 8 * (ws.length + 1) by omega]

theorem Stacked.congr {m m' : Memory} {a : Nat} {ws : List Word} (h : Stacked m a ws)
    (same : ∀ b, a ≤ b → b < a + 8 * ws.length → b % 8 = a % 8 →
      m'.read (BitVec.ofNat 64 b) = m.read (BitVec.ofNat 64 b)) : Stacked m' a ws := by
  induction ws generalizing a with
  | nil => trivial
  | cons w ws ih =>
    rw [List.length_cons] at same
    refine ⟨?_, ih h.2 fun b hb hb' mod => same b (by omega) (by omega) (by omega)⟩
    rw [same a (by omega) (by omega) rfl]
    exact h.1

theorem Stacked.above {m m' : Memory} {a : Nat} {ws : List Word} (h : Stacked m a ws)
    (aligned : a % 8 = 0) (fits : a + 8 * ws.length < 18446744073709551616)
    (same : ∀ x : Word, a ≤ x.toNat → m' x = m x) : Stacked m' a ws := by
  apply h.congr
  intro b low high mod
  have place : (BitVec.ofNat 64 b).toNat = b := by
    rw [BitVec.toNat_ofNat, Nat.mod_eq_of_lt (by omega)]
  exact Memory.read_congr (by omega) fun x hx _ => same x (by omega)

/-- How the state `s'` comes from a state `s` of the same function: there are the words `ws` more
on the stack, the variables are those of `σ`, and nothing else that was on the stack changed. -/
structure Pushed (frame : Frame) (base : Nat) (σ : Store) (s s' : State) (ws : List Word) : Prop
    where
  inside : Inside frame base σ s'
  top : s'.top + 8 * ws.length = s.top
  limit : s.top + frame.size ≤ base
  stacked : Stacked s'.mem s'.top ws
  kept : Kept s.top base frame.size s.mem s'.mem

namespace Pushed

variable {frame : Frame} {base : Nat} {σ σ' : Store} {s s' t : State} {w : Word} {ws : List Word}

theorem refl (h : Inside frame base σ s) : Pushed frame base σ s s [] :=
  ⟨h, by simp, h.below, trivial, Kept.refl _ _ _ _⟩

theorem base_lt (h : Pushed frame base σ s s' ws) : base < 18446744073709551616 := by
  have := (s'.reg .rbp).isLt
  have := h.inside.rbp
  omega

theorem top_mod (h : Pushed frame base σ s s' ws) : s.top % 8 = 0 := by
  have := h.inside.top_mod
  have := h.top
  omega

/-- Words that were pushed stay where they are while more is pushed. -/
theorem trans {ws' : List Word} (h : Pushed frame base σ s s' ws)
    (h' : Pushed frame base σ' s' t ws') : Pushed frame base σ' s t (ws' ++ ws) := by
  have top := h.top
  have top' := h'.top
  have limit := h.limit
  have lt := h.base_lt
  refine ⟨h'.inside, by rw [List.length_append]; omega, limit, h'.stacked.append ?_, ?_⟩
  · rw [top']
    apply h.stacked.congr
    intro b hb hb' mod
    have toNat := toNat_ofNat_of_le (a := b) (w := s'.reg .rbp) h.inside.rbp (by omega)
    have aligned := h.inside.top_mod
    exact h'.kept.read (by omega) (by omega) (by omega)
  · exact h.kept.trans h'.kept (by omega)

/-- Nothing matters but the stack and the two registers that point to it. -/
theorem above (h : Pushed frame base σ s s' ws) (rsp : t.reg .rsp = s'.reg .rsp)
    (rbp : t.reg .rbp = s'.reg .rbp) (mem : ∀ x : Word, s'.top ≤ x.toNat → t.mem x = s'.mem x) :
    Pushed frame base σ s t ws := by
  have top : t.top = s'.top := congrArg BitVec.toNat rsp
  have aligned := h.inside.top_mod
  have old := h.top
  have limit := h.limit
  have lt := h.base_lt
  refine ⟨h.inside.above rbp (by omega) (by omega) mem, by omega, limit, ?_, ?_⟩
  · rw [top]
    exact h.stacked.above aligned (by omega) mem
  · intro x low outside
    rw [mem x (by omega), h.kept x low outside]

theorem same (h : Pushed frame base σ s s' ws) (same : s'.SameStack t) :
    Pushed frame base σ s t ws :=
  h.above same.rsp same.rbp fun x _ => congrFun same.mem x

theorem goto (h : Pushed frame base σ s s' ws) (c : Control) :
    Pushed frame base σ s (s'.goto c) ws :=
  h.same ⟨rfl, rfl, rfl⟩

/-- Takes one more word below the stack, with whatever stands there. -/
theorem lower (h : Pushed frame base σ s s' ws) (room : 8 ≤ s'.top)
    (rsp : t.reg .rsp = s'.reg .rsp - 8) (rbp : t.reg .rbp = s'.reg .rbp)
    (mem : ∀ x : Word, s'.top ≤ x.toNat → t.mem x = s'.mem x) :
    Pushed frame base σ s t (t.mem.read (t.reg .rsp) :: ws) := by
  have top : t.top + 8 = s'.top := by
    rw [State.top, rsp]
    exact State.toNat_pushed room
  have aligned := h.inside.top_mod
  have old := h.top
  have limit := h.limit
  have lt := h.base_lt
  refine ⟨h.inside.above rbp (by omega) (by omega) mem, ?_, limit, ⟨?_, ?_⟩, ?_⟩
  · rw [List.length_cons]
    omega
  · rw [t.ofNat_top]
  · rw [top]
    exact h.stacked.above aligned (by omega) mem
  · intro x low outside
    rw [mem x (by omega), h.kept x low outside]

theorem push (h : Pushed frame base σ s s' ws) (room : 8 ≤ s'.top) (v : Word) :
    Pushed frame base σ s (s'.push v) (v :: ws) := by
  have aligned := h.inside.top_mod
  have place := State.toNat_pushed room
  -- the word that is written lies below everything that is in use
  have same : ∀ x : Word, s'.top ≤ x.toNat → (s'.push v).mem x = s'.mem x := fun x hx =>
    Memory.write_outside (by omega) (by omega)
  have pushed := h.lower (t := s'.push v) room rfl rfl same
  rwa [show (s'.push v).mem.read ((s'.push v).reg .rsp) = v from Memory.read_write_same ..]
    at pushed

/-- Takes the uppermost word off the stack. -/
theorem raise (h : Pushed frame base σ s s' (w :: ws)) (rsp : t.reg .rsp = s'.reg .rsp + 8)
    (rbp : t.reg .rbp = s'.reg .rbp) (mem : t.mem = s'.mem) :
    Pushed frame base σ s t ws := by
  have old := h.top
  have lt := h.base_lt
  have limit := h.limit
  rw [List.length_cons] at old
  have top : t.top = s'.top + 8 := by
    simp only [State.top, rsp] at old limit ⊢
    bv_omega
  have aligned := h.inside.top_mod
  refine ⟨⟨?_, h.inside.base_mod, by omega, by omega, ?_⟩, by omega, limit, ?_, ?_⟩
  · rw [rbp, h.inside.rbp]
  · rw [mem]; exact h.inside.holds
  · rw [top, mem]; exact h.stacked.2
  · rw [mem]; exact h.kept

/-- The uppermost word, read where the stack pointer is. -/
theorem read_top (h : Pushed frame base σ s s' (w :: ws)) : s'.mem.read (s'.reg .rsp) = w := by
  rw [← s'.ofNat_top]
  exact h.stacked.1

theorem pop (h : Pushed frame base σ s s' (w :: ws)) {r : Reg} (rsp : r ≠ .rsp) (rbp : r ≠ .rbp) :
    Pushed frame base σ s (s'.pop r) ws ∧ (s'.pop r).reg r = w := by
  refine ⟨h.raise ?_ ?_ rfl, ?_⟩
  · simp [rsp.symm]
  · simp [rbp.symm]
  · simp [h.read_top]

/-- Pops words into registers, one after another. -/
theorem pops (rs : List Reg) {ws' : List Word} (h : Pushed frame base σ s s' (ws ++ ws'))
    (length : rs.length = ws.length) (distinct : rs.Nodup) (rsp : .rsp ∉ rs) (rbp : .rbp ∉ rs) :
    ∃ t, Instr.effects (rs.map .pop) s' = some t ∧ Pushed frame base σ s t ws' ∧
      (∀ pair ∈ rs.zip ws, t.reg pair.1 = pair.2) ∧
      ∀ q, q ∉ rs → q ≠ .rsp → t.reg q = s'.reg q := by
  induction rs generalizing s' ws with
  | nil =>
    obtain rfl : ws = [] := List.length_eq_zero_iff.mp length.symm
    exact ⟨s', rfl, h, by simp, fun _ _ _ => rfl⟩
  | cons r rs ih =>
    match ws, length with
    | w :: ws, length =>
      rw [List.nodup_cons] at distinct
      simp only [List.mem_cons, not_or] at rsp rbp
      obtain ⟨popped, value⟩ := h.pop (Ne.symm rsp.1) (Ne.symm rbp.1)
      obtain ⟨t, run, pushed, values, others⟩ :=
        ih popped (Nat.succ.inj length) distinct.2 rsp.2 rbp.2
      refine ⟨t, run, pushed, ?_, ?_⟩
      · intro pair hp
        rcases List.mem_cons.mp hp with rfl | hp
        · rw [others r distinct.1 (Ne.symm rsp.1), value]
        · exact values pair hp
      · intro q hq ne
        simp only [List.mem_cons, not_or] at hq
        rw [others q hq.2 ne]
        simp [hq.1, ne]

/-- Writes a variable to its slot. -/
theorem assign (h : Pushed frame base σ s s' ws) {name : String} (mem : name ∈ frame.names)
    (value : Int64) :
    Pushed frame base (σ.set name value) s
      (s'.poke (BitVec.ofNat 64 (base - frame.offset name)) value.toBitVec) ws := by
  have le := Frame.offset_le_size mem
  have ge := frame.wordSize_le_offset name
  have mod := frame.offset_mod name
  have base_mod := h.inside.base_mod
  have below := h.inside.below
  have aligned := h.inside.top_mod
  have place := h.inside.toNat_slot name
  refine ⟨h.inside.assign mem value, h.top, h.limit, ?_, ?_⟩
  · -- the operands that wait lie below the frame
    apply h.stacked.congr
    intro b (hb : s'.top ≤ b) (hb' : b < s'.top + 8 * ws.length) (bmod : b % 8 = s'.top % 8)
    have old := h.top
    have limit := h.limit
    have toNat := toNat_ofNat_of_le (a := b) (w := s'.reg .rbp) h.inside.rbp (by omega)
    exact Memory.read_write_apart (by omega) (by omega) (by omega)
  · exact h.kept.write_slot (by omega) (by omega) (by omega)

end Pushed

end Machine

end StackCompiler
