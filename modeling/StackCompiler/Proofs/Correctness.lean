import Mathlib
import StackCompiler.Proofs.Assembly
import StackCompiler.Proofs.Simulation.Statements

/-!
# Correctness of compiled programs

What a program computes is what the text of its listing computes. Whenever the evaluation of a call
ends with a value, a run of the lines that the text is read as, which enters the function, returns
with that value, and the caller finds its stack and its frame as they were
(`Program.returns_of_call`).
-/

namespace StackCompiler

open Machine

namespace Program

/-- Every function has its section in the listing. -/
theorem exists_section {p : Program} {f : Function} (hf : f ∈ p) (number : Nat) :
    ∃ n rest, f.code n ++ rest <:+ p.listing number := by
  suffices ∃ n rest, f.code n ++ rest <:+ p.sections number by
    obtain ⟨n, rest, suffix⟩ := this
    exact ⟨n, rest, suffix.trans (List.suffix_cons ..)⟩
  induction p generalizing number with
  | nil => exact nomatch hf
  | cons g others ih =>
    rw [sections]
    rcases List.mem_cons.mp hf with rfl | hf
    · exact ⟨number, _, List.suffix_refl _⟩
    · obtain ⟨n, rest, suffix⟩ := ih hf (number + g.labels)
      exact ⟨n, rest, suffix.trans (List.suffix_append ..)⟩

/-- A program that was read and accepted is loaded by its listing. -/
theorem loaded_of_generate {source : String} {p : Program} {supply supply' : Label.Supply}
    {lines : Listing} (read : Program.ofSource source = .ok p)
    (generated : p.generate supply = (.ok lines, supply')) : p.Loaded lines := by
  obtain ⟨admitted, rfl⟩ := generate_eq_ok generated
  exact
    { distinct := p.nodup_marks_listing _ (p.nodup_names_of_admission admitted)
      placed := fun f hf => exists_section hf _
      bound := Program.bound_of_ofSource read
      allowed := Program.allowed_of_admission admitted }

/-- The text of the listing is read as lines of assembly. If a call of a function ends with a value,
then every run of these lines that enters the function with the arguments in their registers
returns with that value, provided that the stack pointer is a multiple of eight and that the stack
has room. How much room depends on how deep the evaluation is
nested, and not on the number of rounds that its loops take. The caller finds `rsp`, `rbp` and its
part of the stack unchanged, except that the return address is popped. -/
theorem returns_of_call {source : String} {p : Program} {supply supply' : Label.Supply}
    {lines : Listing} {f : Function} {args : List Int64} {rounds fuel : Nat} {value : Int64}
    (read : Program.ofSource source = .ok p)
    (generated : p.generate supply = (.ok lines, supply')) (hf : f ∈ p)
    (eval : p.call rounds fuel f.name args = .done value) :
    ∃ asm entry, Listing.ofText? lines.text = some asm ∧
      asm.startingAt? (.entry f.name) = some entry ∧
      ∀ (image : Image asm) (s : State), s.control = .here entry → s.top % 8 = 0 →
        p.room fuel ≤ s.top → HoldsArgs args s →
        ∃ s', image.Reaches s s' ∧ Returned image value s s' := by
  have loaded := p.loaded_of_generate read generated
  obtain ⟨number, rest, -, entry, -⟩ := loaded.entry hf
  refine ⟨lines, _, ofText?_of_ofSource read generated, entry,
    fun image s here aligned room holds => ?_⟩
  exact (simulation loaded image rounds fuel).call eval entry here aligned room holds

/-- The program
`sum(n){s=0;for(i=1;i<=n;i=i+1)s=s+fact(i);return s;}fact(n){if(n<2)return 1;return n*fact(n-1);}`,
which adds up factorials. -/
def factorials : Program :=
  [{ name := "sum"
     loc := 0
     params := [⟨"n", 8⟩]
     body :=
      [.expr (.assign (.var "s" 16 7) (.num 0) 7),
       .loop (some (.assign (.var "i" 24 15) (.num 1) 15))
        (some (.binary .le (.var "i" 24 19) (.var "n" 8 22)))
        (some (.assign (.var "i" 24 24) (.binary .add (.var "i" 24 26) (.num 1)) 24))
        (.expr (.assign (.var "s" 16 30)
          (.binary .add (.var "s" 16 32) (.call "fact" [.var "i" 24 39] 34)) 30)),
       .ret (.var "s" 16 49)]
     frame := .ofNames ["n", "s", "i"]
     frameSize := 24 },
   { name := "fact"
     loc := 52
     params := [⟨"n", 8⟩]
     body :=
      [.cond (.binary .lt (.var "n" 8 63) (.num 2)) (.ret (.num 1)) none,
       .ret (.binary .mul (.var "n" 8 83)
        (.call "fact" [.binary .sub (.var "n" 8 90) (.num 1)] 85))]
     frame := .ofNames ["n"]
     frameSize := 8 }]

/-- The listing of the factorials, at the addresses from zero on. -/
def factorialsImage : Image (factorials.listing 0) :=
  .plain _ (by decide +kernel)

theorem factorials_returns :
    ∃ entry s', Listing.ofText? (factorials.listing 0).text = some (factorials.listing 0) ∧
      (factorials.listing 0).startingAt? (.entry "sum") = some entry ∧
      factorialsImage.Reaches (State.entering entry 2048 5) s' ∧
      Returned factorialsImage 153 (State.entering entry 2048 5) s' := by
  have read : Program.ofSource
      ("sum(n){s=0;for(i=1;i<=n;i=i+1)s=s+fact(i);return s;}" ++
        "fact(n){if(n<2)return 1;return n*fact(n-1);}") = .ok factorials := by
    cbv
  have generated : factorials.generate .full =
      (.ok (factorials.listing 0), (factorials.generate .full).2) := rfl
  have eval : factorials.call 6 40 "sum" [5] = .done 153 := by cbv
  obtain ⟨asm, entry, printed, starts, returns⟩ :=
    returns_of_call read generated List.mem_cons_self eval
  obtain rfl := Option.some.inj (printed.symm.trans (ofText?_of_ofSource read generated))
  have aligned : (State.entering entry 2048 5).top % 8 = 0 := by
    show 2048 % 8 = 0
    decide
  have room : factorials.room 40 ≤ (State.entering entry 2048 5).top := by
    show 40 * (24 + 24) ≤ 2048
    decide
  have holds : HoldsArgs [5] (State.entering entry 2048 5) := by
    intro pair hp
    obtain rfl : pair = (.rdi, 5) := by simpa [argRegs] using hp
    rfl
  obtain ⟨s', reaches, returned⟩ := returns factorialsImage _ rfl aligned room holds
  exact ⟨entry, s', printed, starts, reaches, returned⟩

end Program

end StackCompiler
