import StackCompiler.Proofs.Machine.Execution

/-!
# Activations of functions

A run of a listing as a nest of activations of its functions. A call starts an activation and a
return ends one, whatever the machine itself makes of it. So it can be asked whether the two agree:
whether an activation returns to the place it was called from, and what it leaves behind.

Calls may also go to functions that the listing lacks. Nothing is known of what such a function
computes. It comes back to its caller with `rsp`, `rbp` and everything on the stack as they were.
-/

namespace StackCompiler.Machine

/-- An activation of a function: the state in which it was entered, and where it is to return. -/
structure Activation where
  function : String
  entry : State
  resume : Control

/-- A state of the machine with the activations that have not returned, the running one first. -/
structure Run where
  state : State
  active : List Activation

variable {lines : Listing}

/-- A run that enters a function from outside. -/
def Image.enter (image : Image lines) (function : String) (s : State) : Run :=
  ⟨s, [⟨function, s, image.arrival (s.mem.read (s.reg .rsp))⟩]⟩

/-- One move of a run. -/
inductive Image.Moves (image : Image lines) : Run → Run → Prop where
  /-- Any line but a call or a return. -/
  | own {s s' : State} {a : Activation} {outer : List Activation} {line : Line} {rest : Listing}
      (here : s.control = .here (line :: rest)) (stays : ∀ function, line ≠ .instr (.call function))
      (active : line ≠ .instr .ret) (step : image.step s = some s') :
    Moves image ⟨s, a :: outer⟩ ⟨s', a :: outer⟩
  | call {s s' : State} {a : Activation} {outer : List Activation} {function : String}
      {rest : Listing} (here : s.control = .here (.instr (.call function) :: rest))
      (step : image.step s = some s') :
    Moves image ⟨s, a :: outer⟩ ⟨s', ⟨function, s', .here rest⟩ :: a :: outer⟩
  /-- A call of a function that the listing lacks, and its return. -/
  | foreign {s s' : State} {a : Activation} {outer : List Activation} {function : String}
      {rest : Listing} (here : s.control = .here (.instr (.call function) :: rest))
      (missing : lines.startingAt? (.entry function) = none) (room : 8 ≤ s.top)
      (back : s'.control = image.arrival (image.addressOf rest)) (rsp : s'.reg .rsp = s.reg .rsp)
      (rbp : s'.reg .rbp = s.reg .rbp)
      (mem : ∀ x : Word, s.top - 8 ≤ x.toNat → s'.mem x = (s.push (image.addressOf rest)).mem x) :
    Moves image ⟨s, a :: outer⟩ ⟨s', a :: outer⟩
  | ret {s s' : State} {a : Activation} {outer : List Activation} {rest : Listing}
      (here : s.control = .here (.instr .ret :: rest)) (step : image.step s = some s') :
    Moves image ⟨s, a :: outer⟩ ⟨s', outer⟩

/-! ## 1. What is asked of an activation -/

namespace Activation

variable (a : Activation) (size : Nat) (s : State)

/-- The frame of `size` bytes lies directly below the saved `rbp`, and that directly below the
return address. Whatever waits on the stack lies below the frame. -/
structure Framed : Prop where
  rbp : (s.reg .rbp).toNat + 8 = a.entry.top
  below : s.top + size ≤ (s.reg .rbp).toNat

/-- An instruction may write the word at an address. -/
inductive MayWrite : Instr → Word → Prop where
  /-- The first instruction saves the caller's `rbp`. -/
  | link {w : Word} (first : s.reg .rsp = a.entry.reg .rsp) (place : w.toNat + 8 = a.entry.top) :
    MayWrite (.push .rbp) w
  /-- A slot of the frame. -/
  | slot {i : Instr} {w : Word} (n : Nat) (framed : a.Framed size s) (one_le : 1 ≤ n)
      (le : 8 * n ≤ size) (place : w.toNat + 8 * n = (s.reg .rbp).toNat) : MayWrite i w
  /-- The next word below the stack. -/
  | push {r : Reg} {w : Word} (framed : a.Framed size s) (place : w.toNat + 8 = s.top) :
    MayWrite (.push r) w
  | call {function : String} {w : Word} (framed : a.Framed size s) (place : w.toNat + 8 = s.top) :
    MayWrite (.call function) w

/-- Nothing is left of the activation, and it is about to return to where it was called from. -/
structure Restored (image : Image lines) : Prop where
  rsp : s.reg .rsp = a.entry.reg .rsp
  rbp : s.reg .rbp = a.entry.reg .rbp
  kept : ∀ x : Word, a.entry.top ≤ x.toNat → s.mem x = a.entry.mem x
  address : s.mem.read (s.reg .rsp) = a.entry.mem.read (a.entry.reg .rsp)
  resume : image.arrival (s.mem.read (s.reg .rsp)) = a.resume

/-- The return address and what lies above it are never written. -/
theorem MayWrite.le {a : Activation} {size : Nat} {s : State} {i : Instr} {w : Word}
    (h : a.MayWrite size s i w) : w.toNat + 8 ≤ a.entry.top := by
  cases h with
  | link first place => omega
  | slot n framed one_le le place =>
    have rbp := framed.rbp
    omega
  | push framed place | call framed place =>
    have rbp := framed.rbp
    have below := framed.below
    omega

/-- A write that comes after the first one spares the words on the stack, the saved `rbp` and
everything above it. -/
theorem MayWrite.spares {a : Activation} {size : Nat} {s : State} {i : Instr} {w : Word}
    (h : a.MayWrite size s i w) (framed : a.Framed size s) :
    w.toNat + 8 ≤ s.top ∨
      ((s.reg .rbp).toNat ≤ w.toNat + size ∧ w.toNat + 8 ≤ (s.reg .rbp).toNat) := by
  have rbp := framed.rbp
  have below := framed.below
  cases h with
  | link first place =>
    have top : s.top = a.entry.top := congrArg BitVec.toNat first
    omega
  | slot n _ one_le le place => omega
  | push _ place | call _ place => omega

end Activation

/-- The activation that is running keeps to the discipline of the stack: calls are made on an
aligned stack, writes go to the frame or below the stack, and a return goes back. -/
structure Activation.Disciplined (a : Activation) (image : Image lines) (size : Nat) (r : Run) :
    Prop where
  aligned : ∀ function rest, r.state.control = .here (.instr (.call function) :: rest) →
    r.state.top % 16 = 0
  writes : ∀ i rest w, r.state.control = .here (.instr i :: rest) → i.written? r.state = some w →
    (∃ r', image.Moves r r') → a.MayWrite size r.state i w
  returns : ∀ rest, r.state.control = .here (.instr .ret :: rest) → a.Restored r.state image

end StackCompiler.Machine
