import StackCompiler.Text

/-!
# Tokens

A token is a kind, the byte offset it starts at, and its text. The text is carried along, so a
list of tokens can be read without the source it came from.

A token made by hand may point at bytes that are not whole characters of the source. Such a token
is torn: it has no text. It may stand for a number or for the end, where the text does not matter,
but it is no punctuator and no word, and no message can name it.
-/

namespace StackCompiler

/-- The kinds of tokens. A number carries its value; a list of tokens made by hand may hold a
number without one. -/
inductive TokenKind where
  | punctuator
  | keyword
  | ident
  | num (value : Option Int64)
  | eof
  deriving Repr, DecidableEq

/-- A lexical unit of the source. -/
structure Token where
  kind : TokenKind
  loc : Nat
  /-- The text, unless the token is torn. -/
  text : Option String
  deriving Repr, DecidableEq

namespace Token

/-- The length in bytes of the text of a token. -/
def size (t : Token) : Nat :=
  t.text.elim 0 String.utf8ByteSize

/-- The value of a number. -/
def value? (t : Token) : Option Int64 :=
  match t.kind with
  | .num value => value
  | _ => none

/-- Whether the token is the punctuator written `s`. -/
def isPunctuator (t : Token) (s : String) : Bool :=
  t.kind == .punctuator && t.text == some s

/-- Whether the token is the keyword written `s`. -/
def isKeyword (t : Token) (s : String) : Bool :=
  t.kind == .keyword && t.text == some s

/-- The token of the given kind whose text is the `size` bytes of `source` from `loc` on. It is
torn if these are not whole characters of the source. -/
def ofSlice (source : String) (kind : TokenKind) (loc size : Nat) : Token :=
  ⟨kind, loc, (Text.slice? loc size source.toList).map String.ofList⟩

/-- How messages name the token that stands somewhere, where none stands at the end. A torn token
has no name, unless it is an end marker. -/
def describe : Option Token → Option String
  | none => some "EOF"
  | some t => if t.kind = .eof then some "EOF" else t.text

end Token

end StackCompiler
