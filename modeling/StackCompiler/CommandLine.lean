import StackCompiler.Compilation

/-!
# The command line

The compiler takes the source text itself as its argument, and optionally the name of a file for
the listing. Arguments are read from left to right, and the first one that decides the outcome
does so: a request for help or for the version, or a mistake.

What a request comes to is an `Action`, which the outer program carries out. What the operating
system makes of a file that is written is not decided here. Given its answers, the outcome of an
action is a function of it (`Action.outcome`).
-/

namespace StackCompiler

namespace CommandLine

/-! ## 1. Requests -/

/-- What the arguments ask for. -/
inductive Request where
  | help
  | version
  | compile (source : String) (output : Option String)
  deriving Repr, DecidableEq

/-- What a single argument is, before the separator. -/
inductive Argument where
  | help
  | version
  /-- The output option, with its value if that is in the same argument. -/
  | output (file : Option String)
  /-- The argument after which all others are positional. -/
  | separator
  | positional (text : String)
  | unknown
  deriving Repr, DecidableEq

/-- Whether an argument is an option, and so no value of another one. A hyphen alone is none. -/
def isOption (arg : String) : Bool :=
  arg.startsWith "-" && arg != "-"

/-- What an option with a short name is. The value of an option may follow its letter, directly
or after an equals sign. -/
def shortOption : List Char → Argument
  | 'h' :: _ => .help
  | 'V' :: _ => .version
  | ['o'] => .output none
  | 'o' :: '=' :: file => .output (some (String.ofList file))
  | 'o' :: file => .output (some (String.ofList file))
  | _ => .unknown

/-- The option whose value follows in the same argument. -/
def outputOption : String := "output="

/-- What an option with a long name is. -/
def longOption (name : String) : Argument :=
  if name = "help" then .help
  else if name = "version" then .version
  else if name = "output" then .output none
  else if outputOption.toList.isPrefixOf name.toList then
    .output (some (String.ofList (name.toList.drop outputOption.length)))
  else .unknown

/-- What an argument before the separator is. -/
def Argument.ofString (arg : String) : Argument :=
  match arg.toList with
  | ['-'] => .positional arg
  | ['-', '-'] => .separator
  | '-' :: '-' :: name => longOption (String.ofList name)
  | '-' :: letters => shortOption letters
  | _ => .positional arg

/-- The request made with all its parts known. The source may not be missing. -/
def finish (source output : Option String) : Option Request :=
  source.map fun source => .compile source output

/-- The positional arguments after the separator. There is one source. -/
def readPositional (source output : Option String) : List String → Option Request
  | [] => finish source output
  | arg :: rest =>
    if source.isSome then none else readPositional (some arg) output rest

/-- Reads arguments, with the source and the file met so far. The file may be named once, and its
name may not be empty. -/
def readArguments (source output : Option String) : List String → Option Request
  | [] => finish source output
  | arg :: rest =>
    match Argument.ofString arg with
    | .help => some .help
    | .version => some .version
    | .separator => readPositional source output rest
    | .positional text =>
      if source.isSome then none else readArguments (some text) output rest
    | .output (some file) =>
      if output.isSome || file.isEmpty then none else readArguments source (some file) rest
    | .output none =>
      match rest with
      | [] => none
      | file :: rest =>
        if isOption file || output.isSome || file.isEmpty then none
        else readArguments source (some file) rest
    | .unknown => none

/-- The request that the arguments make, unless they are mistaken. -/
def Request.ofArguments (args : List String) : Option Request :=
  readArguments none none args

/-! ## 2. Actions -/

/-- What the program does in the end. -/
inductive Action where
  /-- Explains how the program is used. -/
  | usage
  /-- Prints a text. -/
  | print (text : String)
  /-- Reports why the source is refused. -/
  | refuse (report : String)
  /-- Writes a text to a file. -/
  | save (file text : String)
  deriving Repr, DecidableEq

/-- The answer to a request for the version. -/
def versionText : String :=
  "mincc 0.1.0\n"

/-- The lines of the answer to a request for help. -/
def helpLines : List String :=
  ["A tiny C-like language compiler emitting x86-64 Intel-syntax assembly",
   "",
   "Usage: mincc [OPTIONS] <SOURCE>",
   "",
   "Arguments:",
   "  <SOURCE>  Full program text",
   "",
   "Options:",
   "  -o, --output <FILE>  Write the listing to FILE instead of stdout",
   "  -h, --help           Print help",
   "  -V, --version        Print version"]

/-- The answer to a request for help. -/
def helpText : String :=
  String.join (helpLines.map (· ++ "\n"))

/-- What a request comes to. -/
def Request.action : Request → Action
  | help => .print helpText
  | version => .print versionText
  | compile source output =>
    match StackCompiler.compile source with
    | .error diagnostic => .refuse (diagnostic.render source ++ "\n")
    | .ok listing =>
      match output with
      | none => .print listing.text
      | some file => .save file listing.text

/-- What the program does with its arguments. -/
def action (args : List String) : Action :=
  match Request.ofArguments args with
  | none => .usage
  | some request => request.action

/-! ## 3. Outcomes -/

/-- The reason why a listing cannot be written, with the number of the fault. -/
def faultReason (words : String) (code : Nat) : String :=
  words ++ " (os error " ++ toString code ++ ")"

/-- The report that a listing could not be written. -/
def writeReport (reason : String) : String :=
  "failed to write assembly: " ++ reason ++ "\n"

/-- Where a text comes out that is written to a file. -/
inductive Destination where
  | file (name : String)
  | stdout
  | stderr
  /-- It is not seen again. -/
  | elsewhere
  deriving Repr, DecidableEq

/-- The answers of the operating system to a write, one for each name of a file: where the text
comes out, or the reason why it cannot be written. -/
abbrev Writes := String → Except String Destination

/-- What can be seen of a run of the program. The wording of the explanation of its use is left
open. -/
structure Outcome where
  exitCode : Nat
  stdout : String
  stderr : Option String
  files : List (String × String)
  deriving Repr, DecidableEq

/-- The outcome of an action, if writes are answered like this. -/
def Action.outcome (writes : Writes) : Action → Outcome
  | usage => ⟨2, "", none, []⟩
  | print text => ⟨0, text, some "", []⟩
  | refuse report => ⟨1, "", some report, []⟩
  | save file text =>
    match writes file with
    | .ok (.file name) => ⟨0, "", some "", [(name, text)]⟩
    | .ok .stdout => ⟨0, text, some "", []⟩
    | .ok .stderr => ⟨0, "", some text, []⟩
    | .ok .elsewhere => ⟨0, "", some "", []⟩
    | .error reason => ⟨1, "", some (writeReport reason), []⟩

/-- The outcome of a run with these arguments. Unless it is said otherwise, every text comes out in
the file that it is written to. -/
def outcome (args : List String) (writes : Writes := fun name => .ok (.file name)) : Outcome :=
  (action args).outcome writes

end CommandLine

end StackCompiler
