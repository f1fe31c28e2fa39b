import StackCompiler.Diagnostic

/-!
# Faults

Everything that can be wrong with a program is one constructor of `Fault`. The wording of the
message (`Fault.message`) and the stage that raises the fault (`Fault.stage`) are functions of
the cause, so that the stages themselves deal in causes only.
-/

namespace StackCompiler

/-- What the grammar would have accepted where it stopped. -/
inductive Wanted where
  | punctuator (text : String)
  | number
  | identifier
  deriving Repr, DecidableEq

/-- The name of what was wanted, as messages write it. -/
def Wanted.phrase : Wanted → String
  | .punctuator text => "\"" ++ text ++ "\""
  | .number => "a number"
  | .identifier => "an identifier"

/-- The causes for which a program is refused. -/
inductive Fault where
  /-- A literal above the largest signed 64-bit integer. -/
  | numberTooLarge
  /-- A character that starts no token. -/
  | strayCharacter (c : Char)
  /-- The token found is none that the grammar accepts here. -/
  | unexpected (wanted : Wanted) (found : String)
  /-- A token that is looked at but is torn. -/
  | tornToken
  /-- A name that occurs twice in one parameter list. -/
  | duplicateParameter (name : String)
  /-- A number token that carries no value. -/
  | numberWithoutValue
  /-- A function name that the assembler reads as something other than a symbol. -/
  | reservedName (name : String)
  /-- A second function of one name. -/
  | redefinition (name : String)
  /-- More parameters than there are argument registers. -/
  | tooManyParameters (limit : Nat)
  /-- More arguments than there are argument registers. -/
  | tooManyArguments (limit : Nat)
  /-- An assignment whose target is not a variable. -/
  | notAssignable
  /-- More branches, loops and calls than there are label numbers. -/
  | labelsExhausted
  deriving Repr, DecidableEq

namespace Fault

/-- The stage that raises the fault. -/
def stage : Fault → Stage
  | numberTooLarge | strayCharacter _ => .lexical
  | unexpected .. | tornToken | duplicateParameter _ | numberWithoutValue => .syntactic
  | reservedName _ | redefinition _ | tooManyParameters _ | tooManyArguments _
  | notAssignable | labelsExhausted => .semantic

/-- The words in which the fault is reported. -/
def message : Fault → String
  | numberTooLarge => "invalid number: number too large to fit in target type"
  | strayCharacter c => "invalid token: '" ++ String.singleton c ++ "'"
  | unexpected wanted found => "expected " ++ wanted.phrase ++ ", but got \"" ++ found ++ "\""
  | tornToken => "internal error: token cuts a character"
  | duplicateParameter name => "duplicate parameter `" ++ name ++ "`"
  | numberWithoutValue => "internal error: numeric token missing value"
  | reservedName name =>
    "`" ++ name ++ "` names a register or assembler keyword and cannot be a function"
  | redefinition name => "redefinition of function `" ++ name ++ "`"
  | tooManyParameters limit => "too many parameters (at most " ++ toString limit ++ ")"
  | tooManyArguments limit => "too many arguments (at most " ++ toString limit ++ ")"
  | notAssignable => "not an lvalue"
  | labelsExhausted => "too many control-flow labels in one program"

/-- The diagnostic for a fault at the byte `loc`. -/
def report (fault : Fault) (loc : Nat) : Diagnostic :=
  ⟨fault.stage, loc, fault.message⟩

end Fault

/-- A fault and the byte of the source it is located at. -/
structure Located where
  fault : Fault
  loc : Nat
  deriving Repr, DecidableEq

/-- The diagnostic for a located fault. -/
def Located.report (l : Located) : Diagnostic :=
  l.fault.report l.loc

end StackCompiler
