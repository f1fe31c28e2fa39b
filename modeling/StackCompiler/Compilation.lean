import StackCompiler.Program.Emission
import StackCompiler.Program.Resolution
import StackCompiler.Surface.Reading
import StackCompiler.Token.Scan

/-!
# Compiling a source text

A source text is scanned into tokens, read into trees, bound to slots and laid out as a listing.
The first stage that objects decides the outcome.

Several sources may share one supply of labels. A session compiles one source over and over with
one supply, so its listings have no label in common.
-/

namespace StackCompiler

/-! ## 1. Programs of tokens and of source texts -/

/-- The program that the tokens of a source of `size` bytes make up. -/
def Program.ofTokens (tokens : List Token) (size : Nat) : Except Located Program :=
  let progress := Surface.readProgram tokens
  match progress.halt with
  | none => .ok (progress.functions.map Surface.Function.bind)
  | some (_, stuck) => .error (stuck.located size)

/-- The program written in a source text. -/
def Program.ofSource (source : String) : Except Located Program := do
  let tokens ← Token.scan source
  Program.ofTokens tokens source.utf8ByteSize

/-! ## 2. Listings of source texts -/

/-- Compiles a source with labels from the supply `s`, and gives the supply after it. -/
def compileWith (source : String) (s : Label.Supply) :
    Except Diagnostic Listing × Label.Supply :=
  match Program.ofSource source with
  | .error objection => (.error objection.report, s)
  | .ok program =>
    let (result, s) := program.generate s
    (result.mapError Located.report, s)

/-- Compiles a source with a supply of its own. -/
def compile (source : String) : Except Diagnostic Listing :=
  (compileWith source .full).1

/-- Compiles sources one after another with one supply, and gives the supply after them. -/
def compileAll : List String → Label.Supply → List (Except Diagnostic Listing) × Label.Supply
  | [], s => ([], s)
  | source :: rest, s =>
    let (result, s) := compileWith source s
    let (results, s) := compileAll rest s
    (result :: results, s)

/-- A source together with the labels that are left for compiling it. -/
structure Session where
  source : String
  supply : Label.Supply

namespace Session

/-- A session in which no label is taken. -/
def start (source : String) : Session :=
  ⟨source, .full⟩

/-- Compiles the source of a session once more. -/
def compile (session : Session) : Except Diagnostic Listing × Session :=
  let (result, supply) := compileWith session.source session.supply
  (result, { session with supply })

end Session

end StackCompiler
