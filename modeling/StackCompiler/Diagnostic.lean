import StackCompiler.Text

/-!
# Diagnostics

A diagnostic says at which byte of the source which stage of compilation refuses it, and in
what words. It is shown as two lines: the source line that holds the byte, and a caret under
the character at that byte, followed by the words.

The caret stands in the column that counts characters, not bytes, from the start of the line.
Carriage returns at the end of the line are not echoed, so a caret may stand behind the last
character shown.
-/

namespace StackCompiler

/-- The stages that can refuse a program: its spelling, its grammar, or its meaning. -/
inductive Stage where
  | lexical
  | syntactic
  | semantic
  deriving Repr, DecidableEq

/-- A refusal of the source, located at one of its bytes. -/
structure Diagnostic where
  stage : Stage
  loc : Nat
  message : String
  deriving Repr, DecidableEq

/-- A line without the carriage returns at its end. -/
def trimReturns (line : List Char) : List Char :=
  (line.reverse.dropWhile (· == '\r')).reverse

/-- The line of `source` around the byte `loc`, and below it a caret under the character at that
byte and then `message`. An offset past the end counts as the end, and an offset inside a
character as the start of that character. -/
def excerpt (source : String) (loc : Nat) (message : String) : String :=
  let (before, after) := Text.cut loc source.toList
  let left := (before.takeWhile (· != '\n')).reverse
  let right := after.takeWhile (· != '\n')
  let caretLine := List.replicate left.length ' ' ++ '^' :: ' ' :: message.toList
  String.ofList (trimReturns (left ++ right) ++ '\n' :: caretLine)

namespace Diagnostic

/-- The diagnostic as it is shown to the author of `source`. -/
def render (d : Diagnostic) (source : String) : String :=
  excerpt source d.loc d.message

end Diagnostic

end StackCompiler
