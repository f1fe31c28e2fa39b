import StackCompiler.Decimal
import StackCompiler.Fault
import StackCompiler.Token

/-!
# Tokens of a source text

The scanner reads a text from left to right and takes the longest lexeme at each place. The
lexemes are words, decimal literals, four punctuators of two characters and thirteen of one.
White space separates lexemes and is otherwise skipped.

Every lexeme and every blank consists of ASCII characters, one byte each. So the number of
characters read is the byte offset, up to the first character that is refused.

The main statements are these.
* A lexeme and what follows it make up the text it was taken from (`Lexeme.split`).
* What follows a lexeme is shorter than the text (`Lexeme.rest_length_lt`), so scanning ends.
-/

namespace StackCompiler

namespace Token

/-! ## 1. Classes of characters and words -/

/-- The characters that separate tokens: space, tab, line feed, form feed, carriage return. -/
def isBlank (c : Char) : Bool :=
  c == ' ' || c == '\t' || c == '\n' || c == '\x0c' || c == '\r'

/-- The characters that start a word: ASCII letters and the underscore. -/
def isWordStart (c : Char) : Bool :=
  c.isAlpha || c == '_'

/-- The characters that continue a word: ASCII letters, digits and the underscore. -/
def isWordPart (c : Char) : Bool :=
  c.isAlphanum || c == '_'

/-- The words that are no identifiers. -/
def keywords : List String :=
  ["return", "if", "else", "for"]

/-- The characters that form a punctuator of two characters with a following `=`. -/
def pairLeads : List Char :=
  ['=', '!', '<', '>']

/-- The characters that are punctuators by themselves. -/
def singles : List Char :=
  ['+', '-', '*', '/', '(', ')', '\x7b', '\x7d', ';', ',', '<', '>', '=']

/-- The kind of a word, decided only once the whole word is read. -/
def kindOfWord (word : String) : TokenKind :=
  if keywords.contains word then .keyword else .ident

/-- The largest value of a literal, which is the largest signed 64-bit integer. -/
def maxLiteral : Nat :=
  9223372036854775807

/-! ## 2. The lexeme in front -/

/-- A lexeme that starts a text, with what follows it. -/
structure Lexeme (input : List Char) where
  kind : TokenKind
  text : List Char
  rest : List Char
  split : text ++ rest = input
  nonempty : text ≠ []

theorem Lexeme.rest_length_lt {input : List Char} (l : Lexeme input) :
    l.rest.length < input.length := by
  have := List.length_pos_iff.mpr l.nonempty
  have := congrArg List.length l.split
  simp only [List.length_append] at this
  omega

/-- The longest run of word characters that starts with `c`. -/
def wordLexeme (c : Char) (cs : List Char) : Lexeme (c :: cs) where
  kind := kindOfWord (String.ofList (c :: cs.takeWhile isWordPart))
  text := c :: cs.takeWhile isWordPart
  rest := cs.dropWhile isWordPart
  split := by simp [List.takeWhile_append_dropWhile]
  nonempty := by simp

/-- The longest run of digits that starts with `c`, if its value is not too large. -/
def numberLexeme (c : Char) (cs : List Char) : Except Fault (Lexeme (c :: cs)) :=
  let value := Decimal.value (c :: cs.takeWhile Char.isDigit)
  if value ≤ maxLiteral then
    .ok {
      kind := .num (some (Int64.ofNat value))
      text := c :: cs.takeWhile Char.isDigit
      rest := cs.dropWhile Char.isDigit
      split := by simp [List.takeWhile_append_dropWhile]
      nonempty := by simp }
  else .error .numberTooLarge

/-- The punctuator of two characters that starts with `c`, if one does. -/
def pairLexeme? (c : Char) : (cs : List Char) → Option (Lexeme (c :: cs))
  | '=' :: rest =>
    if pairLeads.contains c then some ⟨.punctuator, [c, '='], rest, rfl, by simp⟩ else none
  | _ => none

/-- The longest lexeme that starts with the character `c`. -/
def lexeme (c : Char) (cs : List Char) : Except Fault (Lexeme (c :: cs)) :=
  match pairLexeme? c cs with
  | some pair => .ok pair
  | none =>
    if isWordStart c then .ok (wordLexeme c cs)
    else if c.isDigit then numberLexeme c cs
    else if singles.contains c then .ok ⟨.punctuator, [c], cs, rfl, by simp⟩
    else .error (.strayCharacter c)

/-! ## 3. All lexemes -/

/-- Scans the text that starts at the byte `loc`, after the tokens `done`, the last one first. -/
def scanFrom (loc : Nat) (done : List Token) : List Char → Except Located (List Token)
  | [] => .ok (⟨.eof, loc, some ""⟩ :: done).reverse
  | c :: cs =>
    if isBlank c then scanFrom (loc + 1) done cs
    else
      match lexeme c cs with
      | .error fault => .error ⟨fault, loc⟩
      | .ok l =>
        scanFrom (loc + l.text.length) (⟨l.kind, loc, some (String.ofList l.text)⟩ :: done) l.rest
termination_by cs => cs.length
decreasing_by
  · simp
  · exact l.rest_length_lt

/-- The tokens of a source text, closed by one end marker at its end. -/
def scan (source : String) : Except Located (List Token) :=
  scanFrom 0 [] source.toList

end Token

end StackCompiler
