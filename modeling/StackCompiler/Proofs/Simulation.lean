import StackCompiler.Proofs.Machine.Stack

/-!
# Code follows the evaluation

Whatever an evaluation comes to, a run through the code comes to as well: the code of an expression
pushes its value, the code of a statement leaves the stack as it was or gets to the place where
the function returns, and a call returns the value of the function.

An evaluation that ends does so with some amount of fuel. Every node that uses a unit of it pushes
at most one word, and every call at most a frame and three words, so the fuel also bounds the
stack that the run needs (`Program.room`). A loop leaves the stack as it was after every round, so
its rounds take no more of it than one of them does, however many there are.

The induction is on the fuel (`simulation`), with one statement for every kind of node
(`Simulation`). For loops there is an induction on the rounds inside of it.
-/

namespace StackCompiler

open Machine

/-! ## 1. Pieces of runs -/

/-- The size of the largest frame of a program. -/
def Program.largestFrame (p : Program) : Nat :=
  p.foldr (fun f size => max f.frameSize size) 0

/-- The bytes of stack that suffice for an evaluation with so much fuel, whatever the number of
rounds that its loops take. -/
def Program.room (p : Program) (fuel : Nat) : Nat :=
  fuel * (p.largestFrame + 24)

theorem Program.frameSize_le_largestFrame {p : Program} {f : Function} (h : f ∈ p) :
    f.frameSize ≤ p.largestFrame := by
  induction p with
  | nil => exact nomatch h
  | cons g rest ih =>
    rw [largestFrame, List.foldr_cons]
    rcases List.mem_cons.mp h with rfl | h
    · exact Nat.le_max_left ..
    · exact Nat.le_trans (ih h) (Nat.le_max_right ..)

theorem Program.room_succ (p : Program) (fuel : Nat) :
    p.room (fuel + 1) = p.room fuel + p.largestFrame + 24 := by
  simp only [room, Nat.succ_mul]
  omega

/-- A listing that holds the code of every function of a program that can be compiled. -/
structure Program.Loaded (p : Program) (lines : Listing) : Prop where
  distinct : lines.marks.Nodup
  placed : ∀ f ∈ p, ∃ number rest, f.code number ++ rest <:+ lines
  bound : ∀ f ∈ p, f.Bound
  allowed : ∀ f ∈ p, f.Allowed

/-- The end of a function, where all its returns go. -/
def Function.leaving (f : Function) (rest : Listing) : Listing :=
  .label (.exit f.name) :: (instrs [.mov .rsp .rbp, .pop .rbp, .ret] ++ rest)

/-- Calls of a function and its returns lead to its code. -/
theorem Program.Loaded.entry {p : Program} {lines : Listing} (loaded : p.Loaded lines)
    {f : Function} (hf : f ∈ p) :
    ∃ number rest, codeOfBlock f.name number f.body ++ f.leaving rest <:+ lines ∧
      lines.startingAt? (.entry f.name) = some (.entry f.name ::
        (instrs f.enterCode ++ (codeOfBlock f.name number f.body ++ f.leaving rest))) ∧
      lines.startingAt? (.label (.exit f.name)) = some (f.leaving rest) := by
  obtain ⟨number, rest, placed⟩ := loaded.placed f hf
  have code_eq : f.code number ++ rest = .exported f.name :: .entry f.name ::
      (instrs f.enterCode ++ (codeOfBlock f.name number f.body ++ f.leaving rest)) := by
    simp [Function.code, Function.leaving]
  rw [code_eq] at placed
  have entered := (List.suffix_cons ..).trans placed
  have body := ((List.suffix_append ..).trans (List.suffix_cons ..)).trans entered
  exact ⟨number, rest, body, Listing.startingAt?_of_suffix loaded.distinct rfl entered,
    Listing.startingAt?_of_suffix loaded.distinct rfl ((List.suffix_append ..).trans body)⟩

section

variable {p : Program} {lines : Listing} {image : Image lines} {frame : Frame} {base : Nat}
  {σ σ' : Store} {room : Nat} {code rest xs ys : Listing} {s s' t : State} {ws ws' : List Word}

/-- The state stands at the start of a piece of code, inside of a function, with room on the
stack. -/
structure Start (lines : Listing) (frame : Frame) (base : Nat) (σ : Store) (room : Nat)
    (code rest : Listing) (s : State) : Prop where
  suffix : code ++ rest <:+ lines
  control : s.control = .here (code ++ rest)
  inside : Inside frame base σ s
  room : room ≤ s.top

/-- The run comes to where `rest` is left to do, with words pushed. -/
structure Comes (image : Image lines) (frame : Frame) (base : Nat) (σ : Store) (ws : List Word)
    (rest : Listing) (s s' : State) : Prop where
  reaches : image.Reaches s s'
  control : s'.control = .here rest
  pushed : Pushed frame base σ s s' ws

namespace Start

theorem comes (h : Start lines frame base σ room code rest s) (image : Image lines) :
    Comes image frame base σ [] (code ++ rest) s s :=
  ⟨.refl, h.control, .refl h.inside⟩

theorem left (h : Start lines frame base σ room (xs ++ ys) rest s) :
    Start lines frame base σ room xs (ys ++ rest) s := by
  have suffix := h.suffix
  have control := h.control
  rw [List.append_assoc] at suffix control
  exact ⟨suffix, control, h.inside, h.room⟩

theorem weaken {room' : Nat} (h : Start lines frame base σ room code rest s) (le : room' ≤ room) :
    Start lines frame base σ room' code rest s :=
  ⟨h.suffix, h.control, h.inside, Nat.le_trans le h.room⟩

/-- The second piece of code starts where the first one came to. -/
theorem right {room' : Nat} (h : Start lines frame base σ room (xs ++ ys) rest s)
    (c : Comes image frame base σ' ws (ys ++ rest) s s') (le : room' + 8 * ws.length ≤ room) :
    Start lines frame base σ' room' ys rest s' := by
  have suffix := h.suffix
  rw [List.append_assoc] at suffix
  have top := c.pushed.top
  have room := h.room
  exact ⟨(List.suffix_append ..).trans suffix, c.control, c.pushed.inside, by omega⟩

/-- A piece of code starts behind the line before it. -/
theorem past {line : Line} (h : Start lines frame base σ room (xs ++ line :: ys) rest s)
    (c : Comes image frame base σ' [] (ys ++ rest) s s') :
    Start lines frame base σ' room ys rest s' := by
  rw [List.append_cons] at h
  exact h.right c (Nat.le_refl _)

/-- A piece of code starts over. -/
theorem anew (h : Start lines frame base σ room code rest s)
    (c : Comes image frame base σ' [] (code ++ rest) s s') :
    Start lines frame base σ' room code rest s' := by
  rw [← List.nil_append code] at h
  exact h.right c (Nat.le_refl _)

/-- A label that occurs in a piece of code leads there. -/
theorem landing {target : Target}
    (h : Start lines frame base σ room (xs ++ .label target :: ys) rest s)
    (distinct : lines.marks.Nodup) :
    lines.startingAt? (.label target) = some (.label target :: (ys ++ rest)) := by
  have suffix := h.suffix
  rw [List.append_assoc] at suffix
  exact Listing.startingAt?_of_suffix distinct rfl ((List.suffix_append ..).trans suffix)

end Start

namespace Comes

theorem trans (h : Comes image frame base σ ws xs s s')
    (h' : Comes image frame base σ' ws' ys s' t) :
    Comes image frame base σ' (ws' ++ ws) ys s t :=
  ⟨h.reaches.trans h'.reaches, h'.control, h.pushed.trans h'.pushed⟩

/-- Goes on through instructions in a row. -/
theorem straight {c : List Instr} (h : Comes image frame base σ ws (instrs c ++ rest) s s')
    (run : Instr.effects c s' = some t) (pushed : Pushed frame base σ' s t ws') :
    Comes image frame base σ' ws' rest s (t.goto (.here rest)) :=
  ⟨h.reaches.trans (Image.reaches_instrs h.control run), rfl, pushed.goto _⟩

/-- Goes on through instructions that end with a push. -/
theorem pushes {c : List Instr} {r : Reg} {v : Word}
    (h : Comes image frame base σ ws (instrs (c ++ [.push r]) ++ rest) s s')
    (run : Instr.effects c s' = some t) (pushed : Pushed frame base σ' s t ws')
    (value : t.reg r = v) (room : 8 ≤ t.top) :
    ∃ s₃, Comes image frame base σ' (v :: ws') rest s s₃ := by
  have last : Instr.effects [.push r] t = some (t.push (t.reg r)) := by
    simp only [Instr.effects, Instr.effect, if_pos room, Option.bind_some]
  have whole : Instr.effects (c ++ [.push r]) s' = some (t.push v) := by
    rw [Instr.effects_append, run, Option.bind_some, last, value]
  exact ⟨_, h.straight whole (pushed.push room v)⟩

/-- Goes on past a mark. -/
theorem mark {line : Line} (h : Comes image frame base σ ws (line :: rest) s s')
    (marked : line.isMark) : Comes image frame base σ ws rest s (s'.goto (.here rest)) :=
  ⟨h.reaches.trans (.step (Image.step_mark h.control marked) .refl), rfl, h.pushed.goto _⟩

/-- Goes on where a jump leads. -/
theorem jump {target : Target} {dest : Listing}
    (h : Comes image frame base σ ws (.instr (.jump target) :: rest) s s')
    (landing : lines.startingAt? (.label target) = some dest) :
    Comes image frame base σ ws dest s (s'.goto (.here dest)) :=
  ⟨h.reaches.trans (.step (Image.step_jump h.control landing) .refl), rfl, h.pushed.goto _⟩

/-- Goes on where a jump leads, or behind it if the last comparison found a difference. -/
theorem jumpEqual {target : Target} {dest : Listing} {f : Flags}
    (h : Comes image frame base σ ws (.instr (.jumpEqual target) :: rest) s s')
    (flags : s'.flags = some f) (landing : lines.startingAt? (.label target) = some dest) :
    Comes image frame base σ ws (if f.zero then dest else rest) s
      (s'.goto (.here (if f.zero then dest else rest))) :=
  ⟨h.reaches.trans (.step (Image.step_jumpEqual h.control flags landing) .refl), rfl,
    h.pushed.goto _⟩

/-- Goes on where a jump leads, or behind it if the last result was zero. -/
theorem jumpNonzero {target : Target} {dest : Listing} {f : Flags}
    (h : Comes image frame base σ ws (.instr (.jumpNonzero target) :: rest) s s')
    (flags : s'.flags = some f) (landing : lines.startingAt? (.label target) = some dest) :
    Comes image frame base σ ws (if f.zero then rest else dest) s
      (s'.goto (.here (if f.zero then rest else dest))) :=
  ⟨h.reaches.trans (.step (Image.step_jumpNonzero h.control flags landing) .refl), rfl,
    h.pushed.goto _⟩

end Comes

/-! ## 2. What is simulated -/

/-- How the run of a statement ends: behind the statement, or where the function returns. -/
def Ends (image : Image lines) (frame : Frame) (base : Nat) (leave rest : Listing) (s : State) :
    Exit → Prop
  | .next σ => ∃ s', Comes image frame base σ [] rest s s'
  | .returned value =>
    ∃ σ s', Comes image frame base σ [] leave s s' ∧ s'.reg .rax = value.toBitVec

namespace Ends

variable {leave : Listing} {exit : Exit}

/-- Something that leaves the stack alone may come before. -/
theorem after (h : Ends image frame base leave rest s' exit)
    (c : Comes image frame base σ [] xs s s') : Ends image frame base leave rest s exit := by
  cases exit with
  | next σ' =>
    obtain ⟨t, ct⟩ := h
    exact ⟨t, c.trans ct⟩
  | returned value =>
    obtain ⟨σ', t, ct, rax⟩ := h
    exact ⟨σ', t, c.trans ct, rax⟩

/-- Something that leaves the stack alone may follow. -/
theorem before (h : Ends image frame base leave xs s exit)
    (next : ∀ {σ s'}, Comes image frame base σ [] xs s s' →
      ∃ t, Comes image frame base σ [] rest s t) : Ends image frame base leave rest s exit := by
  cases exit with
  | next σ =>
    obtain ⟨s', c⟩ := h
    exact next c
  | returned value => exact h

end Ends

/-- The code of the rounds of a loop. -/
def roundsCode (function : String) (own second third fourth : Nat) (test next : Option Expr)
    (body : Stmt) : Listing :=
  .label (.numbered .again own) :: test.elim [] (fun e => e.branchCode second (.numbered .done own))
    ++ body.code function third
    ++ next.elim [] (Expr.effectCode fourth)
    ++ instrs [.jump (.numbered .again own)]
    ++ [.label (.numbered .done own)]

/-- The registers hold the arguments of a call. -/
def HoldsArgs (args : List Int64) (s : State) : Prop :=
  ∀ pair ∈ argRegs.zip args, s.reg pair.1 = pair.2.toBitVec

theorem HoldsArgs.congr {args : List Int64} {s s' : State} (h : HoldsArgs args s)
    (same : ∀ r ∈ argRegs, s'.reg r = s.reg r) : HoldsArgs args s' := by
  intro pair hp
  rw [same _ (List.of_mem_zip hp).1]
  exact h pair hp

/-- The function that was entered in the state `s` has returned with a value. -/
structure Returned (image : Image lines) (value : Int64) (s s' : State) : Prop where
  control : s'.control = image.arrival (s.mem.read (s.reg .rsp))
  value : s'.reg .rax = value.toBitVec
  rsp : s'.reg .rsp = s.reg .rsp + 8
  rbp : s'.reg .rbp = s.reg .rbp
  kept : ∀ x : Word, s.top ≤ x.toNat → s'.mem x = s.mem x

/-- Runs follow every evaluation within these limits. -/
structure Simulation (p : Program) (image : Image lines) (rounds fuel : Nat) : Prop where
  expr : ∀ {frame base σ σ' e value number rest s},
    Expr.eval p rounds fuel σ e = .done (value, σ') → e.Bound frame → e.Allowed →
    Start lines frame base σ (p.room fuel) (e.code number) rest s →
    ∃ s', Comes image frame base σ' [value.toBitVec] rest s s'
  args : ∀ {frame base σ σ' args values number rest s},
    evalArgs p rounds fuel σ args = .done (values, σ') → BoundArgs frame args → AllowedArgs args →
    Start lines frame base σ (p.room fuel) (codeOfArgs number args) rest s →
    ∃ s', Comes image frame base σ' (values.map Int64.toBitVec).reverse rest s s'
  effect : ∀ {frame base σ σ' clause value number rest s},
    evalClause p rounds fuel σ clause = .done (value, σ') → BoundClause frame clause →
    AllowedClause clause →
    Start lines frame base σ (p.room fuel) (clause.elim [] (Expr.effectCode number)) rest s →
    ∃ s', Comes image frame base σ' [] rest s s'
  test : ∀ {frame base σ σ' clause value number target dest rest s},
    evalClause p rounds fuel σ clause = .done (value, σ') → BoundClause frame clause →
    AllowedClause clause → lines.startingAt? (.label target) = some dest →
    Start lines frame base σ (p.room fuel) (clause.elim [] (·.branchCode number target)) rest s →
    ∃ s', Comes image frame base σ' [] (if value = some 0 then dest else rest) s s'
  stmt : ∀ {frame base σ stmt exit function leave number rest s},
    Stmt.eval p rounds fuel σ stmt = .done exit → stmt.Bound frame → stmt.Allowed →
    lines.startingAt? (.label (.exit function)) = some leave →
    Start lines frame base σ (p.room fuel) (stmt.code function number) rest s →
    Ends image frame base leave rest s exit
  block : ∀ {frame base σ body exit function leave number rest s},
    evalBlock p rounds fuel σ body = .done exit → BoundBlock frame body → AllowedBlock body →
    lines.startingAt? (.label (.exit function)) = some leave →
    Start lines frame base σ (p.room fuel) (codeOfBlock function number body) rest s →
    Ends image frame base leave rest s exit
  call : ∀ {name args value dest s},
    p.call rounds fuel name args = .done value → lines.startingAt? (.entry name) = some dest →
    s.control = .here dest → s.top % 8 = 0 → p.room fuel ≤ s.top → HoldsArgs args s →
    ∃ s', image.Reaches s s' ∧ Returned image value s s'

end

end StackCompiler
