import Mathlib.Data.List.Nodup
import StackCompiler.Proofs.Binding
import StackCompiler.Proofs.Marks

/-!
# Stack layouts

At every line of a listing it is known how the stack of the running function looks there: whether
its frame is set up, how many operands wait on the stack and which of them are addresses of slots.
A few lines also rely on a register or on the alignment of the stack. All of that is the layout at
a line, and every line leads from one layout to another (`Line.Leads`).

The layouts at labels have to be known before the code between a jump and its label is looked at.
They are collected in a plan, and a piece of code is laid out if it flows from layout to layout
under every plan that agrees with the code about its own labels (`Laid`).

Main statement: the listing of a program that can be compiled flows from its first line to its
last one under some plan (`Program.exists_flow`).
-/

namespace StackCompiler

/-! ## 1. Layouts and lines -/

/-- What is known of a word that waits on the stack. -/
inductive Cell where
  | word
  /-- The address of the frame slot at `offset`. -/
  | slot (offset : Nat)

/-- What is known besides the layout of the stack. -/
inductive Known where
  | nothing
  /-- `rax` holds the address of the frame slot at `offset`. -/
  | address (offset : Nat)
  /-- `rax` holds the stack pointer. -/
  | top
  /-- The zero flag tells whether the stack pointer is a multiple of sixteen. -/
  | tested
  | aligned
  | unaligned
  /-- A call has just come back, so the next line is an instruction. -/
  | back
  /-- No run gets here. -/
  | gone

/-- How far a function has got. -/
inductive Phase where
  /-- Between two functions. -/
  | outside
  | entered
  /-- The caller's `rbp` is saved. -/
  | linked
  /-- `rbp` and `rsp` point to the saved `rbp`. -/
  | based
  /-- The frame is set up, and `cells` are on the stack below it, the last one first. -/
  | body (known : Known) (cells : List Cell)
  /-- The frame is taken down, and the caller's `rbp` is restored. -/
  | unlinked

/-- The phase of a function together with the size of its frame. -/
structure Layout where
  size : Nat
  phase : Phase

/-- The layouts of labels, and the sizes of the frames of functions. -/
structure Plan where
  landing : Target → Layout
  size : String → Nat

/-- The offset is that of a slot in a frame of `size` bytes. -/
structure IsOffset (size offset : Nat) : Prop where
  word_le : 8 ≤ offset
  le_size : offset ≤ size
  mod : offset % 8 = 0

theorem IsOffset.of_mem {frame : Frame} {name : String} (h : name ∈ frame.names) :
    IsOffset frame.size (frame.offset name) :=
  ⟨frame.wordSize_le_offset name, Frame.offset_le_size h, frame.offset_mod name⟩

/-- Whether an instruction changes nothing but flags and registers for operands. -/
def Instr.isQuiet : Instr → Bool
  | .mov dst _ | .movImm dst _ | .loadSlot dst _ | .arith _ dst _ | .addImm dst _ | .subImm dst _
  | .andImm dst _ => dst != .rsp && dst != .rbp
  | .signExtend | .divide _ | .compare _ _ | .compareImm _ _ | .setByte _ | .widenByte => true
  | _ => false

/-- An instruction of a function with a frame of `size` bytes leads from one phase to another. -/
inductive Instr.Leads (plan : Plan) (size : Nat) : Phase → Instr → Phase → Prop where
  | link : Leads plan size .entered (.push .rbp) .linked
  | base : Leads plan size .linked (.mov .rbp .rsp) .based
  | baseEmpty (empty : size = 0) : Leads plan size .linked (.mov .rbp .rsp) (.body .nothing [])
  | reserve : Leads plan size .based (.subImm .rsp size) (.body .nothing [])
  | push {known : Known} {cells : List Cell} {r : Reg} (rsp : r ≠ .rsp) :
    Leads plan size (.body known cells) (.push r) (.body .nothing (.word :: cells))
  | pushAddress {offset : Nat} {cells : List Cell} :
    Leads plan size (.body (.address offset) cells) (.push .rax)
      (.body .nothing (.slot offset :: cells))
  | pop {known : Known} {cell : Cell} {cells : List Cell} {r : Reg} (rsp : r ≠ .rsp)
      (rbp : r ≠ .rbp) :
    Leads plan size (.body known (cell :: cells)) (.pop r) (.body .nothing cells)
  | popAddress {known : Known} {offset : Nat} {cells : List Cell} :
    Leads plan size (.body known (.slot offset :: cells)) (.pop .rax)
      (.body (.address offset) cells)
  | drop {known : Known} {cell : Cell} {cells : List Cell} :
    Leads plan size (.body known (cell :: cells)) (.addImm .rsp 8) (.body .nothing cells)
  | address {known : Known} {cells : List Cell} {offset : Nat} (h : IsOffset size offset) :
    Leads plan size (.body known cells) (.slotAddress .rax offset) (.body (.address offset) cells)
  | store {offset : Nat} {cells : List Cell} {src : Reg} :
    Leads plan size (.body (.address offset) cells) (.store .rax src) (.body .nothing cells)
  | storeSlot {known : Known} {cells : List Cell} {offset : Nat} {src : Reg}
      (h : IsOffset size offset) :
    Leads plan size (.body known cells) (.storeSlot offset src) (.body .nothing cells)
  | quiet {known : Known} {cells : List Cell} {i : Instr} (h : i.isQuiet) :
    Leads plan size (.body known cells) i (.body .nothing cells)
  | copyTop {known : Known} {cells : List Cell} :
    Leads plan size (.body known cells) (.mov .rax .rsp) (.body .top cells)
  | test {cells : List Cell} :
    Leads plan size (.body .top cells) (.andImm .rax 15) (.body .tested cells)
  | pad {cells : List Cell} :
    Leads plan size (.body .unaligned cells) (.subImm .rsp 8) (.body .aligned (.word :: cells))
  | quietAligned {cells : List Cell} {i : Instr} (h : i.isQuiet) :
    Leads plan size (.body .aligned cells) i (.body .aligned cells)
  | call {function : String} {cells : List Cell} :
    Leads plan size (.body .aligned cells) (.call function) (.body .back cells)
  | jump {known : Known} {cells : List Cell} {target : Target}
      (landing : plan.landing target = ⟨size, .body .nothing cells⟩) :
    Leads plan size (.body known cells) (.jump target) (.body .gone cells)
  | jumpEqual {known : Known} {cells : List Cell} {target : Target}
      (landing : plan.landing target = ⟨size, .body .nothing cells⟩) :
    Leads plan size (.body known cells) (.jumpEqual target) (.body .nothing cells)
  | jumpNonzero {cells : List Cell} {target : Target}
      (landing : plan.landing target = ⟨size, .body .unaligned cells⟩) :
    Leads plan size (.body .tested cells) (.jumpNonzero target) (.body .aligned cells)
  | unreserve {known : Known} {cells : List Cell} :
    Leads plan size (.body known cells) (.mov .rsp .rbp) .based
  | unlink : Leads plan size .based (.pop .rbp) .unlinked
  | ret : Leads plan size .unlinked .ret .outside

/-- A line leads from one layout to another. A mark is come to from above or from elsewhere. -/
inductive Line.Leads (plan : Plan) : Layout → Line → Layout → Prop where
  | dialect {size : Nat} : Leads plan ⟨size, .outside⟩ .dialect ⟨size, .outside⟩
  | exported {size : Nat} {function : String} :
    Leads plan ⟨size, .outside⟩ (.exported function) ⟨size, .outside⟩
  | entry {function : String} {layout : Layout}
      (h : layout.phase = .outside ∨ layout = ⟨plan.size function, .entered⟩) :
    Leads plan layout (.entry function) ⟨plan.size function, .entered⟩
  | label {size : Nat} {known known' : Known} {cells : List Cell} {target : Target}
      (landing : plan.landing target = ⟨size, .body known' cells⟩) (settled : known' ≠ .back)
      (h : known = known' ∨ known = .gone) :
    Leads plan ⟨size, .body known cells⟩ (.label target) ⟨size, .body known' cells⟩
  | instr {size : Nat} {phase phase' : Phase} {i : Instr} (h : i.Leads plan size phase phase') :
    Leads plan ⟨size, phase⟩ (.instr i) ⟨size, phase'⟩

/-- Lines lead from one layout to another. -/
inductive Flow (plan : Plan) : Layout → Listing → Layout → Prop where
  | nil {layout : Layout} : Flow plan layout [] layout
  | cons {layout middle last : Layout} {line : Line} {rest : Listing}
      (first : line.Leads plan layout middle) (others : Flow plan middle rest last) :
    Flow plan layout (line :: rest) last

namespace Flow

variable {plan : Plan} {layout middle last : Layout} {xs ys : Listing}

theorem append (hx : Flow plan layout xs middle) (hy : Flow plan middle ys last) :
    Flow plan layout (xs ++ ys) last := by
  induction hx with
  | nil => exact hy
  | cons first _ ih => exact .cons first (ih hy)

theorem instr {size : Nat} {phase phase' : Phase} {i : Instr}
    (first : i.Leads plan size phase phase') (others : Flow plan ⟨size, phase'⟩ xs last) :
    Flow plan ⟨size, phase⟩ (.instr i :: xs) last :=
  .cons (.instr first) others

/-- Every place in a flow has a layout. -/
theorem of_suffix (h : Flow plan layout xs last) (suffix : ys <:+ xs) :
    ∃ middle, Flow plan middle ys last := by
  induction h with
  | nil =>
    rw [List.suffix_nil.mp suffix]
    exact ⟨_, .nil⟩
  | cons first others ih =>
    rcases List.suffix_cons_iff.mp suffix with rfl | later
    · exact ⟨_, .cons first others⟩
    · exact ih later

end Flow

/-! ## 2. Plans -/

namespace Listing

/-- The labels of a listing, in order. -/
def labels (lines : Listing) : List Target :=
  lines.filterMap fun
    | .label target => some target
    | _ => none

@[simp] theorem labels_append (xs ys : Listing) : labels (xs ++ ys) = labels xs ++ labels ys :=
  List.filterMap_append ..

@[simp] theorem labels_label (target : Target) (rest : Listing) :
    labels (.label target :: rest) = target :: labels rest := rfl

@[simp] theorem labels_entry (function : String) (rest : Listing) :
    labels (.entry function :: rest) = labels rest := rfl

@[simp] theorem labels_exported (function : String) (rest : Listing) :
    labels (.exported function :: rest) = labels rest := rfl

@[simp] theorem labels_dialect (rest : Listing) : labels (.dialect :: rest) = labels rest := rfl

@[simp] theorem labels_instrs (is : List Instr) : labels (instrs is) = [] := by
  induction is with
  | nil => rfl
  | cons i is ih => exact ih

theorem map_labels_sublist (lines : Listing) :
    ((labels lines).map .label).Sublist (marks lines) := by
  induction lines with
  | nil => exact .slnil
  | cons line rest ih =>
    cases line with
    | label target => exact ih.cons_cons _
    | entry function => exact ih.cons _
    | dialect | exported | instr => exact ih

theorem nodup_labels {lines : Listing} (distinct : (marks lines).Nodup) : (labels lines).Nodup :=
  List.Nodup.of_map _ (distinct.sublist (map_labels_sublist lines))

end Listing

/-- Some labels with the layouts there. -/
abbrev Landings := List (Target × Layout)

/-- The plan has the landings. -/
def Plan.Follows (plan : Plan) (landings : Landings) : Prop :=
  ∀ landing ∈ landings, plan.landing landing.1 = landing.2

theorem Plan.Follows.of_subset {plan : Plan} {landings others : Landings}
    (h : plan.Follows landings) (subset : others ⊆ landings) : plan.Follows others :=
  fun landing hl => h landing (subset hl)

/-- Landings with different labels make up a plan. -/
theorem Plan.exists_follows {landings : Landings} (distinct : (landings.map (·.1)).Nodup)
    (size : String → Nat) : ∃ plan : Plan, plan.Follows landings ∧ plan.size = size := by
  let plan : Plan :=
    { landing := fun target => ((landings.find? (·.1 == target)).map (·.2)).getD ⟨0, .outside⟩
      size }
  refine ⟨plan, fun landing hl => ?_, rfl⟩
  have found : landings.find? (·.1 == landing.1) = some landing := by
    clear plan
    induction landings with
    | nil => exact nomatch hl
    | cons first others ih =>
      rw [List.map_cons, List.nodup_cons] at distinct
      rw [List.find?_cons]
      rcases List.mem_cons.mp hl with rfl | hl
      · simp
      · have ne : first.1 ≠ landing.1 := fun same =>
          distinct.1 (same ▸ List.mem_map_of_mem hl)
        rw [show (first.1 == landing.1) = false by simpa using ne]
        exact ih distinct.2 hl
  show ((landings.find? (·.1 == landing.1)).map (·.2)).getD _ = _
  rw [found]
  rfl

/-- Code that flows from one layout to another under every plan with certain landings for its own
labels and with the landings `outer` for others. -/
def Laid (outer : Landings) (first : Layout) (code : Listing) (last : Layout) : Prop :=
  ∃ own : Landings, own.map (·.1) = code.labels ∧
    ∀ plan : Plan, plan.Follows (own ++ outer) → Flow plan first code last

namespace Laid

variable {outer : Landings} {first middle last : Layout} {xs ys : Listing}

theorem nil : Laid outer first [] first :=
  ⟨[], rfl, fun _ _ => .nil⟩

/-- Code without labels. -/
theorem instrs {is : List Instr}
    (h : ∀ plan : Plan, plan.Follows outer → Flow plan first (instrs is) last) :
    Laid outer first (instrs is) last :=
  ⟨[], by simp, h⟩

theorem append (hx : Laid outer first xs middle) (hy : Laid outer middle ys last) :
    Laid outer first (xs ++ ys) last := by
  obtain ⟨own, keys, flow⟩ := hx
  obtain ⟨own', keys', flow'⟩ := hy
  refine ⟨own ++ own', by simp [keys, keys'], fun plan h => ?_⟩
  exact (flow plan (h.of_subset (by simp))).append (flow' plan (h.of_subset (by simp)))

/-- Code on both sides of a label that may jump to it. -/
theorem join {size : Nat} {known known' : Known} {cells : List Cell} {target : Target}
    (hx : Laid ((target, ⟨size, .body known' cells⟩) :: outer) first xs ⟨size, .body known cells⟩)
    (hy : Laid ((target, ⟨size, .body known' cells⟩) :: outer) ⟨size, .body known' cells⟩ ys last)
    (settled : known' ≠ .back) (meets : known = known' ∨ known = .gone) :
    Laid outer first (xs ++ .label target :: ys) last := by
  obtain ⟨own, keys, flow⟩ := hx
  obtain ⟨own', keys', flow'⟩ := hy
  refine ⟨own ++ (target, ⟨size, .body known' cells⟩) :: own', by simp [keys, keys'],
    fun plan h => ?_⟩
  have landing : plan.landing target = ⟨size, .body known' cells⟩ := h (target, _) (by simp)
  have before : plan.Follows (own ++ (target, ⟨size, .body known' cells⟩) :: outer) :=
    h.of_subset fun x hx => by grind
  have behind : plan.Follows (own' ++ (target, ⟨size, .body known' cells⟩) :: outer) :=
    h.of_subset fun x hx => by grind
  exact (flow plan before).append (.cons (.label landing settled meets) (flow' plan behind))

end Laid

end StackCompiler
