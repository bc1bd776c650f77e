/-!
# Grammars

The lexical description of a programming language: its words, comment marks, literals and operators.
The scanner reads every language with the same rules; what differs between languages is a `Grammar`.
-/

namespace CloneDetection

/-- A quotation mark that opens and closes a literal. -/
structure Quote where
  mark : Char
  /-- Whether the literal may run over several lines. -/
  multiline : Bool
  /-- Whether a backslash takes the next character along. -/
  escapes : Bool
  deriving DecidableEq, Repr

/-- How a language treats comments between `/*` and `*/`. -/
inductive BlockComments
  | absent
  | flat
  | nested
  deriving DecidableEq, Repr

/-- The lexical description of a language. -/
structure Grammar where
  keywords : List String
  /-- Type keywords that stand for identifiers when identifiers are not told apart. -/
  primitiveTypes : List String := []
  /-- Keywords that carry no weight when noise is dropped. -/
  noiseKeywords : List String := []
  /-- The marks that open a comment up to the end of the line. -/
  lineComments : List (List Char) := [['/', '/']]
  blockComments : BlockComments := .flat
  /-- Whether a line that starts with `#` is a directive. -/
  directives : Bool := false
  quotes : List Quote := [⟨'"', false, true⟩, ⟨'\'', false, true⟩]
  /-- The marks that, three in a row, delimit a literal over several lines. -/
  tripleQuotes : List Char := []
  /-- Whether a backslash takes the next character along between triple quotes. -/
  tripleEscapes : Bool := true
  /-- Letters that may stand in front of a quotation mark. -/
  stringPrefixes : List (List Char) := []
  /-- Marks in front of a literal in which a backslash is plain and a quotation mark is doubled. -/
  verbatimPrefixes : List (List Char) := []
  /-- Whether `r"…"` and `r#"…"#` are literals without escapes. -/
  rawStrings : Bool := false
  /-- Whether `'name` without a closing mark is a label. -/
  lifetimes : Bool := false
  /-- Whether `/…/` where an operand is due is a literal. -/
  regexLiterals : Bool := false
  /-- Whether `$` belongs to identifiers. -/
  dollarInNames : Bool := false
  deriving Repr

namespace Grammar

/-- Whether a word is a keyword. -/
def isKeyword (g : Grammar) (word : String) : Bool :=
  g.keywords.contains word || g.primitiveTypes.contains word

/-- Whether a word names a primitive type. -/
def isPrimitiveType (g : Grammar) (word : String) : Bool :=
  g.primitiveTypes.contains word

/-- Whether a word is a keyword without weight. -/
def isNoiseKeyword (g : Grammar) (word : String) : Bool :=
  g.noiseKeywords.contains word

/-- The operators of more than one character. The first in the list that the text starts with is
read, so a longer one stands before its beginnings. -/
def operators : List (List Char) :=
  [['>', '>', '>', '='], ['<', '<', '='], ['>', '>', '='], ['>', '>', '>'], ['.', '.', '.'],
   ['=', '=', '='], ['!', '=', '='], ['*', '*', '='], ['/', '/', '='], ['<', '=', '>'],
   ['.', '.', '='], [':', ':'], ['-', '>'], ['=', '>'], ['=', '='], ['!', '='], ['<', '='],
   ['>', '='], ['&', '&'], ['|', '|'], ['+', '+'], ['-', '-'], ['+', '='], ['-', '='], ['*', '='],
   ['/', '='], ['%', '='], ['&', '='], ['|', '='], ['^', '='], ['<', '<'], ['>', '>'], ['*', '*'],
   ['/', '/'], [':', '='], ['?', '?'], ['?', '.'], ['?', ':'], ['.', '.'], ['<', '-'], ['!', '!']]

end Grammar

end CloneDetection
