import Mathlib
import StackCompiler.Proofs.Layout
import StackCompiler.Proofs.Sections

/-!
# Depth of the stack

At every line of a function it is known how many words lie on the stack above its frame, whatever
way the line is come to. This number, the depth, is found by reading the lines from the top: a push
and the padding of a call add a word, a pop and the end of the padding take one away. No layout of
the stack is assumed, so offsets and frame sizes may be anything.

Code is followed under an assignment of depths to labels (`Keeps`). The depths at labels are
collected along with the code (`Settles`), and since no label is repeated they are unambiguous.

The main statements are these.
* Both ways through a call take its arguments from the stack and put its result there
  (`callCode_settles`).
* The code of an expression raises the depth by one (`Expr.settles`).
* The code of a statement leads from depth zero to depth zero (`Stmt.settles`), in whatever part of
  a function it stands, be it reached or not.
-/

namespace StackCompiler

/-! ## 1. Depth -/

/-- By how many words an instruction raises the stack. A call is padded by one word. -/
def Instr.rise : Instr → Int
  | .push _ => 1
  | .pop _ => -1
  | .subImm dst value => if dst = .rsp ∧ value = 8 then 1 else 0
  | .addImm dst value => if dst = .rsp ∧ value = 8 then -1 else 0
  | _ => 0

/-- By how many words a line raises the stack. -/
def Line.rise : Line → Int
  | .instr i => i.rise
  | .dialect | .exported _ | .entry _ | .label _ => 0

namespace Listing

/-- By how many words lines raise the stack if they are run through from the top. The depth at a
line is the rise of the lines before it. -/
def rise : Listing → Int
  | [] => 0
  | line :: rest => line.rise + rise rest

theorem rise_append (xs ys : Listing) : rise (xs ++ ys) = rise xs + rise ys := by
  induction xs with
  | nil => exact (Int.zero_add _).symm
  | cons line xs ih => rw [List.cons_append, rise, ih, rise, Int.add_assoc]

theorem rise_take_succ {xs : Listing} {i : Nat} {line : Line} (h : xs[i]? = some line) :
    rise (xs.take (i + 1)) = rise (xs.take i) + line.rise := by
  rw [List.take_add_one, h, rise_append]
  exact congrArg _ (Int.add_zero _)

end Listing

/-- Some labels with the depths there. -/
abbrev Depths := List (Target × Int)

/-- Lines lead from one depth to another without ever going below zero, and meet every label that
they are or jump to at the depth that is known for it. -/
inductive Keeps (depths : Depths) : Int → Listing → Int → Prop where
  | nil {depth : Int} (nonneg : 0 ≤ depth) : Keeps depths depth [] depth
  | cons {depth last : Int} {line : Line} {rest : Listing} (nonneg : 0 ≤ depth)
      (known : ∀ target, line.target? = some target → (target, depth) ∈ depths)
      (others : Keeps depths (depth + line.rise) rest last) :
    Keeps depths depth (line :: rest) last

namespace Keeps

variable {depths others : Depths} {depth middle last : Int} {xs ys before after : Listing}

theorem nonneg (h : Keeps depths depth xs last) : 0 ≤ depth := by
  cases h with
  | nil h => exact h
  | cons h _ _ => exact h

theorem append (hx : Keeps depths depth xs middle) (hy : Keeps depths middle ys last) :
    Keeps depths depth (xs ++ ys) last := by
  induction hx with
  | nil _ => exact hy
  | cons nonneg known _ ih => exact .cons nonneg known (ih hy)

theorem mono (h : Keeps depths depth xs last) (subset : depths ⊆ others) :
    Keeps others depth xs last := by
  induction h with
  | nil nonneg => exact .nil nonneg
  | cons nonneg known _ ih => exact .cons nonneg (fun t ht => subset (known t ht)) ih

theorem instr {i : Instr} (nonneg : 0 ≤ depth)
    (known : ∀ target, i.target? = some target → (target, depth) ∈ depths)
    (rest : Keeps depths (depth + i.rise) xs last) : Keeps depths depth (.instr i :: xs) last :=
  .cons nonneg known rest

theorem label {target : Target} (nonneg : 0 ≤ depth) (known : (target, depth) ∈ depths)
    (rest : Keeps depths depth xs last) : Keeps depths depth (.label target :: xs) last := by
  refine .cons nonneg (fun t ht => ?_) ?_
  · cases ht
    exact known
  · rwa [Line.rise, Int.add_zero]

/-- The lines behind others are followed from the depth that the others lead to. -/
theorem behind (h : Keeps depths depth (before ++ after) last) :
    Keeps depths (depth + before.rise) after last := by
  induction before generalizing depth with
  | nil => rwa [Listing.rise, Int.add_zero]
  | cons line before ih =>
    cases h with
    | cons _ _ rest =>
      rw [Listing.rise, ← Int.add_assoc]
      exact ih rest

theorem last_eq (h : Keeps depths depth xs last) : last = depth + xs.rise := by
  rw [← List.append_nil xs] at h
  cases h.behind with
  | nil _ => rfl

theorem nonneg_of_prefix (h : Keeps depths depth xs last) (le : before <+: xs) :
    0 ≤ depth + before.rise := by
  obtain ⟨after, rfl⟩ := le
  exact h.behind.nonneg

/-- A label is met at the depth that is known for it. -/
theorem known_at (h : Keeps depths depth xs last) {i : Nat} {line : Line} {target : Target}
    (here : xs[i]? = some line) (is : line.target? = some target) :
    (target, depth + Listing.rise (xs.take i)) ∈ depths := by
  obtain ⟨lt, rfl⟩ := List.getElem?_eq_some_iff.mp here
  rw [← List.take_append_drop i xs, List.drop_eq_getElem_cons lt] at h
  cases h.behind with
  | cons _ known _ => exact known target is

/-- All lines with one target are met at one depth. -/
theorem rise_take_eq (h : Keeps depths depth xs last) (distinct : (depths.map (·.1)).Nodup)
    {i j : Nat} {line line' : Line} {target : Target} (here : xs[i]? = some line)
    (is : line.target? = some target) (there : xs[j]? = some line')
    (is' : line'.target? = some target) :
    Listing.rise (xs.take i) = Listing.rise (xs.take j) := by
  have same := List.inj_on_of_nodup_map distinct (h.known_at here is) (h.known_at there is') rfl
  exact Int.add_left_cancel (congrArg Prod.snd same)

end Keeps

/-- Code that leads from one depth to another, if certain depths are known for its own labels and
the depths `outer` for others. -/
def Settles (outer : Depths) (depth : Int) (code : Listing) (last : Int) : Prop :=
  ∃ own : Depths, own.map (·.1) = code.labels ∧ Keeps (own ++ outer) depth code last

namespace Settles

variable {outer : Depths} {depth middle last : Int} {xs ys : Listing}

theorem nil (nonneg : 0 ≤ depth) : Settles outer depth [] depth :=
  ⟨[], rfl, .nil nonneg⟩

/-- Code without labels. -/
theorem instrs {is : List Instr} (h : Keeps outer depth (instrs is) last) :
    Settles outer depth (instrs is) last :=
  ⟨[], by rw [Listing.labels_instrs]; rfl, h⟩

theorem append (hx : Settles outer depth xs middle) (hy : Settles outer middle ys last) :
    Settles outer depth (xs ++ ys) last := by
  obtain ⟨own, keys, keeps⟩ := hx
  obtain ⟨own', keys', keeps'⟩ := hy
  refine ⟨own ++ own', by simp [keys, keys'], ?_⟩
  exact (keeps.mono (by simp)).append (keeps'.mono (by simp))

/-- Code on both sides of a label that may jump to it. -/
theorem join {target : Target} (hx : Settles ((target, middle) :: outer) depth xs middle)
    (hy : Settles ((target, middle) :: outer) middle ys last) :
    Settles outer depth (xs ++ .label target :: ys) last := by
  obtain ⟨own, keys, keeps⟩ := hx
  obtain ⟨own', keys', keeps'⟩ := hy
  refine ⟨own ++ (target, middle) :: own', by simp [keys, keys'], ?_⟩
  have known : (target, middle) ∈ (own ++ (target, middle) :: own') ++ outer := by simp
  have before : own ++ (target, middle) :: outer ⊆ (own ++ (target, middle) :: own') ++ outer := by
    intro x hx
    grind
  have behind : own' ++ (target, middle) :: outer ⊆ (own ++ (target, middle) :: own') ++ outer := by
    intro x hx
    grind
  exact (keeps.mono before).append (.label keeps'.nonneg known (keeps'.mono behind))

theorem last_eq (h : Settles outer depth xs last) : last = depth + xs.rise := by
  obtain ⟨own, -, keeps⟩ := h
  exact keeps.last_eq

end Settles

/-! ## 2. Instructions -/

section Instructions

variable {depths outer : Depths} {depth middle last : Int} {rest : Listing}

namespace Keeps

/-- An instruction that does not jump. -/
theorem step {i : Instr} (nonneg : 0 ≤ depth) (stays : i.target? = none)
    (level : depth + i.rise = middle) (next : Keeps depths middle rest last) :
    Keeps depths depth (.instr i :: rest) last := by
  subst level
  refine .instr nonneg (fun t ht => ?_) next
  rw [stays] at ht
  cases ht

/-- A jump, which does not move the stack. -/
theorem jump {i : Instr} {target : Target} (jumps : i.target? = some target) (level : i.rise = 0)
    (known : (target, depth) ∈ depths) (next : Keeps depths depth rest last) :
    Keeps depths depth (.instr i :: rest) last := by
  refine .instr next.nonneg (fun t ht => ?_) ?_
  · rw [jumps] at ht
    cases ht
    exact known
  · rwa [level, Int.add_zero]

/-- Instructions that neither jump nor move the stack. -/
theorem still {is : List Instr} (h : ∀ i ∈ is, i.target? = none ∧ i.rise = 0)
    (next : Keeps depths depth rest last) : Keeps depths depth (instrs is ++ rest) last := by
  induction is with
  | nil => exact next
  | cons i is ih =>
    obtain ⟨⟨stays, level⟩, others⟩ := List.forall_mem_cons.mp h
    exact .step next.nonneg stays (by rw [level, Int.add_zero]) (ih others)

/-- Registers are popped from a stack that is deep enough. -/
theorem pops (rs : List Reg) (next : Keeps depths depth rest last) :
    Keeps depths (depth + rs.length) (instrs (rs.map .pop) ++ rest) last := by
  have nonneg := next.nonneg
  induction rs with
  | nil => simpa [instrs] using next
  | cons r rs ih =>
    refine .step (by omega) rfl ?_ ih
    rw [List.length_cons, Instr.rise]
    omega

end Keeps

theorem Op.still_code (op : Op) : ∀ i ∈ op.code, i.target? = none ∧ i.rise = 0 := by
  cases op <;> decide

/-- Both ways through a call take its arguments from the stack and put the result there. -/
theorem callCode_settles (name : String) {args : Nat} (few : args ≤ argLimit) (number : Nat)
    (nonneg : 0 ≤ depth) (outer : Depths) :
    Settles outer (depth + args) (callCode name args number) (depth + 1) := by
  have length : (argRegs.take args).reverse.length = args := by
    rw [List.length_reverse, List.length_take]
    exact Nat.min_eq_left few
  have higher : 0 ≤ depth + 1 := by omega
  let behind : Depths := (.numbered .done number, depth) :: outer
  let inside : Depths := (.numbered .padded number, depth) :: behind
  have chooses : Settles inside (depth + args) (instrs ((argRegs.take args).reverse.map .pop)
      ++ instrs [.mov .rax .rsp, .andImm .rax 15, .jumpNonzero (.numbered .padded number),
        .movImm .rax 0, .call name, .jump (.numbered .done number)]) depth := by
    have branch : Keeps inside depth (instrs [.mov .rax .rsp, .andImm .rax 15,
        .jumpNonzero (.numbered .padded number), .movImm .rax 0, .call name,
        .jump (.numbered .done number)]) depth :=
      .step nonneg rfl (Int.add_zero _) <| .step nonneg rfl (Int.add_zero _) <|
        .jump rfl rfl (List.mem_cons_self ..) <| .step nonneg rfl (Int.add_zero _) <|
          .step nonneg rfl (Int.add_zero _) <|
            .jump rfl rfl (List.mem_cons_of_mem _ (List.mem_cons_self ..)) <| .nil nonneg
    refine ⟨[], by simp, ?_⟩
    have popped := branch.pops (argRegs.take args).reverse
    rwa [length] at popped
  have padded : Settles inside depth
      (instrs [.subImm .rsp 8, .movImm .rax 0, .call name, .addImm .rsp 8]) depth :=
    .instrs <| .step nonneg rfl rfl <| .step higher rfl (Int.add_zero _) <|
      .step higher rfl (Int.add_zero _) <| .step higher rfl (Int.add_neg_cancel_right depth 1) <|
        .nil nonneg
  have pushes : Settles behind depth (instrs [.push .rax]) (depth + 1) :=
    .instrs (.step nonneg rfl rfl (.nil higher))
  exact (chooses.join padded).join pushes

end Instructions

/-! ## 3. Expressions and statements -/

/-- The address of a variable is a word. -/
theorem Expr.settles_addressCode {e : Expr} (target : e.isVariable = true) {depth : Int}
    (nonneg : 0 ≤ depth) (outer : Depths) :
    Settles outer depth (instrs e.addressCode) (depth + 1) := by
  have higher : 0 ≤ depth + 1 := by omega
  cases e with
  | var name offset loc =>
    exact .instrs <| .step nonneg rfl (Int.add_zero _) <| .step nonneg rfl rfl <| .nil higher
  | num | binary | assign | call => cases target

mutual

/-- The code of an expression raises the depth by one. -/
theorem Expr.settles (e : Expr) (allowed : e.Allowed) (number : Nat) {depth : Int}
    (nonneg : 0 ≤ depth) (outer : Depths) : Settles outer depth (e.code number) (depth + 1) := by
  have higher : 0 ≤ depth + 1 := by omega
  have highest : 0 ≤ depth + 1 + 1 := by omega
  cases e with
  | num value =>
    exact .instrs <| .step nonneg rfl (Int.add_zero _) <| .step nonneg rfl rfl <| .nil higher
  | var name offset loc =>
    exact .instrs <| .step nonneg rfl (Int.add_zero _) <| .step nonneg rfl rfl <| .nil higher
  | binary op lhs rhs =>
    have left := lhs.settles allowed.1 number nonneg outer
    have right := rhs.settles allowed.2 (number + lhs.labels) higher outer
    refine (left.append right).append (.instrs ?_)
    have operate : Keeps outer depth (instrs op.code ++ instrs [.push .rax]) (depth + 1) :=
      .still op.still_code (.step nonneg rfl rfl (.nil higher))
    rw [List.append_assoc]
    refine .step highest rfl (Int.add_neg_cancel_right _ 1) <|
      .step higher rfl (Int.add_neg_cancel_right _ 1) ?_
    simpa [instrs] using operate
  | assign target value loc =>
    have address := Expr.settles_addressCode allowed.1 nonneg outer
    have operand := value.settles allowed.2 number higher outer
    exact (address.append operand).append <| .instrs <|
      .step highest rfl (Int.add_neg_cancel_right _ 1) <|
        .step higher rfl (Int.add_neg_cancel_right _ 1) <|
          .step nonneg rfl (Int.add_zero _) <| .step nonneg rfl rfl <| .nil higher
  | call name args loc =>
    exact (settlesArgs args allowed.2.2 number nonneg outer).append
      (callCode_settles name allowed.1 _ nonneg outer)

/-- The code of arguments raises the depth by one for each of them. -/
theorem settlesArgs (args : List Expr) (allowed : AllowedArgs args) (number : Nat) {depth : Int}
    (nonneg : 0 ≤ depth) (outer : Depths) :
    Settles outer depth (codeOfArgs number args) (depth + args.length) := by
  cases args with
  | nil => exact (Int.add_zero depth).symm ▸ .nil nonneg
  | cons arg args =>
    have first := arg.settles allowed.1 number nonneg outer
    have others := settlesArgs args allowed.2 (number + arg.labels)
      (show (0 : Int) ≤ depth + 1 by omega) outer
    have level : depth + 1 + args.length = depth + ((arg :: args).length : Int) := by
      rw [List.length_cons]
      omega
    exact level ▸ first.append others

end

theorem Expr.settles_effectCode (e : Expr) (allowed : e.Allowed) (number : Nat) {depth : Int}
    (nonneg : 0 ≤ depth) (outer : Depths) : Settles outer depth (e.effectCode number) depth :=
  (e.settles allowed number nonneg outer).append <| .instrs <|
    .step (by omega) rfl (Int.add_neg_cancel_right _ 1) <| .nil nonneg

/-- A branch jumps and goes on at the depth at which it started. -/
theorem Expr.settles_branchCode (e : Expr) (allowed : e.Allowed) (number : Nat) {depth : Int}
    (nonneg : 0 ≤ depth) {outer : Depths} {target : Target} (known : (target, depth) ∈ outer) :
    Settles outer depth (e.branchCode number target) depth :=
  (e.settles allowed number nonneg outer).append <| .instrs <|
    .step (by omega) rfl (Int.add_neg_cancel_right _ 1) <|
      .step nonneg rfl (Int.add_zero _) <| .jump rfl rfl known <| .nil nonneg

theorem settlesClause {outer : Depths} {clause : Option Expr} {code : Expr → Listing}
    {depth : Int} (nonneg : 0 ≤ depth)
    (h : ∀ e, clause = some e → Settles outer depth (code e) depth) :
    Settles outer depth (clause.elim [] code) depth := by
  cases clause with
  | none => exact .nil nonneg
  | some e => exact h e rfl

/-- A jump between statements. -/
theorem Settles.leap {outer : Depths} {target : Target} {depth : Int} (nonneg : 0 ≤ depth)
    (known : (target, depth) ∈ outer) :
    Settles outer depth (StackCompiler.instrs [.jump target]) depth :=
  .instrs (.jump rfl rfl known (.nil nonneg))

mutual

/-- The code of a statement leads from depth zero to depth zero. -/
theorem Stmt.settles (s : Stmt) (allowed : s.Allowed) (function : String) (number : Nat)
    {outer : Depths} (exit : (.exit function, 0) ∈ outer) :
    Settles outer 0 (s.code function number) 0 := by
  have zero : (0 : Int) ≤ 0 := Int.le_refl 0
  match s with
  | .ret value =>
    exact (value.settles allowed number zero outer).append <| .instrs <|
      .step (by omega) rfl (Int.add_neg_cancel_right _ 1) <| .jump rfl rfl exit <| .nil zero
  | .expr e => exact e.settles_effectCode allowed number zero outer
  | .block body => exact settlesBlock body allowed function number exit
  | .cond test yes none =>
    let behind : Depths := (.numbered .done number, 0) :: outer
    have first : Settles behind 0 _ 0 :=
      test.settles_branchCode allowed.1 (number + 1) zero (List.mem_cons_self ..)
    have second : Settles behind 0 _ 0 := yes.settles allowed.2 function
      (number + 1 + test.labels) (List.mem_cons_of_mem _ exit)
    exact (first.append second).join (.nil zero)
  | .cond test yes (some no) =>
    let behind : Depths := (.numbered .done number, 0) :: outer
    let inside : Depths := (.numbered .otherwise number, 0) :: behind
    have exit_inside : (.exit function, 0) ∈ inside :=
      List.mem_cons_of_mem _ (List.mem_cons_of_mem _ exit)
    have first : Settles inside 0 _ 0 :=
      test.settles_branchCode allowed.1 (number + 1) zero (List.mem_cons_self ..)
    have second : Settles inside 0 _ 0 := yes.settles allowed.2.1 function
      (number + 1 + test.labels) exit_inside
    have skip : Settles inside 0 (instrs [.jump (.numbered .done number)]) 0 :=
      .leap zero (List.mem_cons_of_mem _ (List.mem_cons_self ..))
    have third : Settles inside 0 _ 0 := no.settles allowed.2.2 function
      (number + 1 + test.labels + yes.labels) exit_inside
    exact (((first.append second).append skip).join third).join (.nil zero)
  | .loop start test next body =>
    let behind : Depths := (.numbered .done number, 0) :: outer
    let inside : Depths := (.numbered .again number, 0) :: behind
    have exit_inside : (.exit function, 0) ∈ inside :=
      List.mem_cons_of_mem _ (List.mem_cons_of_mem _ exit)
    let second := number + 1 + labelsOfClause start
    let third := second + labelsOfClause test
    have starts := settlesClause zero fun e he =>
      e.settles_effectCode (allowed.1 e he) (number + 1) zero inside
    have done_inside : (.numbered .done number, 0) ∈ inside :=
      List.mem_cons_of_mem _ (List.mem_cons_self ..)
    have tests := settlesClause zero fun e he =>
      e.settles_branchCode (allowed.2.1 e he) second zero done_inside
    have runs := body.settles allowed.2.2.2 function third exit_inside
    have steps := settlesClause zero fun e he =>
      e.settles_effectCode (allowed.2.2.1 e he) (third + body.labels) zero inside
    have repeats : Settles inside 0 (instrs [.jump (.numbered .again number)]) 0 :=
      .leap zero (List.mem_cons_self ..)
    have rounds := starts.join (((tests.append runs).append steps).append repeats)
    have whole := rounds.join (.nil zero)
    simpa only [Stmt.code, List.append_assoc, List.cons_append] using whole

/-- The code of a block leads from depth zero to depth zero. -/
theorem settlesBlock (body : List Stmt) (allowed : AllowedBlock body) (function : String)
    (number : Nat) {outer : Depths} (exit : (.exit function, 0) ∈ outer) :
    Settles outer 0 (codeOfBlock function number body) 0 := by
  match body with
  | [] => exact .nil (Int.le_refl 0)
  | s :: rest =>
    exact (s.settles allowed.1 function number exit).append
      (settlesBlock rest allowed.2 function (number + s.labels) exit)

end

theorem Expr.rise_branchCode (e : Expr) (allowed : e.Allowed) (number : Nat) (target : Target) :
    Listing.rise (e.branchCode number target) = 0 := by
  have known : (target, 0) ∈ [(target, (0 : Int))] := List.mem_singleton_self _
  have := (e.settles_branchCode allowed number (Int.le_refl 0) known).last_eq
  omega

theorem Expr.rise_effectCode (e : Expr) (allowed : e.Allowed) (number : Nat) :
    Listing.rise (e.effectCode number) = 0 := by
  have := (e.settles_effectCode allowed number (Int.le_refl 0) []).last_eq
  omega

theorem rise_clause {clause : Option Expr} {code : Expr → Listing}
    (h : ∀ e, clause = some e → (code e).rise = 0) : Listing.rise (clause.elim [] code) = 0 := by
  cases clause with
  | none => rfl
  | some e => exact h e rfl

theorem Listing.rise_append_eq_zero {xs ys : Listing} (hx : xs.rise = 0) (hy : ys.rise = 0) :
    (xs ++ ys).rise = 0 := by
  rw [rise_append, hx, hy, Int.add_zero]

theorem Stmt.rise_code (s : Stmt) (allowed : s.Allowed) (function : String) (number : Nat) :
    Listing.rise (s.code function number) = 0 := by
  have := (s.settles allowed function number (List.mem_singleton_self _)).last_eq
  omega

end StackCompiler
