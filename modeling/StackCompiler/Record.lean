import StackCompiler.Compilation

/-!
# Records of a compilation

What the compiler notes down while it compiles a source: how much each stage produced, which slots
and which labels were given out. Records are functions of what the stages produce, so no stage
keeps a log. A compilation that fails leaves the records of what came before the failure.

A function that is stuck while it is read has given out slots already. They follow from the tokens
read up to there: a word there is a variable or a parameter unless it is called, and it is called
exactly if an opening parenthesis was read directly after it.
-/

namespace StackCompiler

/-- How detailed a record is. -/
inductive Detail where
  | debug
  | trace
  deriving Repr, DecidableEq

/-- The name of a level of detail. -/
def Detail.text : Detail → String
  | debug => "DEBUG"
  | trace => "TRACE"

/-- What a record is about. -/
inductive Topic where
  | tokens
  | slots
  | functions
  | labels
  | sections
  deriving Repr, DecidableEq

/-- The name under which records on a topic are filed. -/
def Topic.path : Topic → String
  | tokens => "mincc::tokenizer"
  | slots => "mincc::locals"
  | functions => "mincc::parser"
  | labels => "mincc::label"
  | sections => "mincc::codegen"

/-- One entry of the log. -/
structure Record where
  detail : Detail
  topic : Topic
  text : String
  deriving Repr, DecidableEq

namespace Record

/-! ## 1. Single records -/

/-- The source of `bytes` bytes was scanned into `count` tokens. -/
def scanned (bytes count : Nat) : Record :=
  ⟨.debug, .tokens, s!"tokenized {bytes} bytes into {count} tokens"⟩

/-- A variable got its slot. -/
def slot (s : Slot) : Record :=
  ⟨.trace, .slots, s!"local `{s.name}` -> rbp-{s.offset}"⟩

/-- A function was read to its end. -/
def function (f : Function) : Record :=
  let params := f.params.length
  let locals := f.frame.length
  ⟨.debug, .functions,
    s!"function `{f.name}`: {params} param(s), {locals} local(s), frame {f.frameSize} bytes"⟩

/-- All of `count` functions were read. -/
def program (count : Nat) : Record :=
  ⟨.debug, .functions, s!"parsed {count} function(s)"⟩

/-- A label was taken. -/
def label (number : Nat) : Record :=
  let text := Label.text number
  ⟨.trace, .labels, s!"allocated label {text}"⟩

/-- The section of a function was laid out. -/
def laidOut (f : Function) (code : Listing) : Record :=
  let bytes := code.text.utf8ByteSize
  ⟨.debug, .sections, s!"emitted `{f.name}` ({bytes} bytes of assembly)"⟩

/-! ## 2. Records of the stages -/

/-- The words among tokens that have been read as variables or parameters. -/
def variableWords : List Token → List String
  | [] => []
  | t :: rest =>
    if t.kind = .ident && !rest.head?.any (·.isPunctuator "(") then
      t.text.toList ++ variableWords rest
    else variableWords rest

/-- The frame of a function that starts with the tokens `start` and is stuck. The first token is
its name. -/
def stuckFrame (start : List Token) (stuck : Surface.Stuck) : Frame :=
  let read := start.take (start.length - stuck.rest.length)
  Frame.ofNames (variableWords (read.drop 1))

/-- The records of a function that was read to its end. -/
def ofFunction (f : Function) : List Record :=
  f.frame.slots.map slot ++ [function f]

/-- The records of reading a program. -/
def ofProgress (progress : Surface.Progress) : List Record :=
  let functions := progress.functions.map Surface.Function.bind
  let complete := functions.flatMap ofFunction
  match progress.halt with
  | none => complete ++ [program functions.length]
  | some (start, stuck) => complete ++ (stuckFrame start stuck).slots.map slot

/-- The records of the labels that were taken between two states of a supply. -/
def ofLabels (before after : Label.Supply) : List Record :=
  (List.range' before.taken (after.taken - before.taken)).map label

/-- The records of laying out functions after those with the names `defined`. -/
def ofSections (defined : List String) : Program → Label.Supply → List Record
  | [], _ => []
  | f :: rest, s =>
    match f.emit defined s with
    | .ok (code, left) =>
      ofLabels s left ++ laidOut f code :: ofSections (f.name :: defined) rest left
    | .error refusal => ofLabels s refusal.supply

/-- The records of compiling a source with a supply of its own. -/
def ofSource (source : String) : List Record :=
  match Token.scan source with
  | .error _ => []
  | .ok tokens =>
    let progress := Surface.readProgram tokens
    let front := scanned source.utf8ByteSize tokens.length :: ofProgress progress
    if progress.halt.isSome then front
    else front ++ ofSections [] (progress.functions.map Surface.Function.bind) .full

end Record

end StackCompiler
