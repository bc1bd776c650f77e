import CloneDetection.Lexeme.Comment
import CloneDetection.Lexeme.Literal
import CloneDetection.Lexeme.Number
import CloneDetection.Sum
import CloneDetection.Text.Blank
import CloneDetection.Text.Numeric
import CloneDetection.Text.Utf8
import CloneDetection.Token.Basic

/-!
# Cutting a text into pieces

A text is cut from left to right into pieces: line ends, blanks, escaped line ends, directives and
tokens. `nextPiece` decides the role and the length of the piece at the start of the text, and `cut`
repeats it, so the pieces make up the whole text. `lexemes` keeps the tokens, with their offsets.

The decision needs a little of what came before (`Context`): whether anything stands on the line
yet, whether an operand is due, and whether the last character belongs to a word.
-/

namespace CloneDetection

/-- What a piece of text is to the scanner. -/
inductive Role
  /-- A newline. -/
  | lineEnd
  /-- Another white space character or a byte order mark. -/
  | blank
  /-- A backslash at the end of a line. -/
  | splice
  /-- A directive line. -/
  | directive
  | token (kind : TokenKind)
  deriving DecidableEq, Repr

/-- A piece of text with its role. -/
structure Piece where
  role : Role
  chars : List Char
  deriving DecidableEq, Repr

/-- The ways in which a token can fail to end. -/
inductive Unterminated
  | blockComment
  | stringLiteral
  | rawStringLiteral
  deriving DecidableEq, Repr

/-- What is missing, in words. -/
def Unterminated.message : Unterminated → String
  | blockComment => "unterminated block comment"
  | stringLiteral => "unterminated string literal"
  | rawStringLiteral => "unterminated raw string literal"

/-- What the scanner remembers of the text before it. -/
structure Context where
  /-- No token or directive stands on the line yet. -/
  lineStart : Bool := true
  /-- The last token other than a comment leaves room for an operand. -/
  operandDue : Bool := true
  /-- The last character is a letter, a numeral or `_`. -/
  afterWord : Bool := false
  deriving DecidableEq, Repr

/-! ## Identifiers -/

namespace Grammar

/-- Whether a character can start an identifier. -/
def startsName (g : Grammar) (c : Char) : Bool :=
  Text.isAlphabetic c || c == '_' || c == '$' && g.dollarInNames

/-- Whether a character can stand in an identifier. -/
def continuesName (g : Grammar) (c : Char) : Bool :=
  Text.isAlphanumeric c || c == '_' || c == '$' && g.dollarInNames

/-- The length of the longest run of identifier characters at the start of a text. -/
def nameLength (g : Grammar) (cs : List Char) : Nat :=
  (cs.takeWhile g.continuesName).length

/-! ## Literals -/

/-- Whether the text starts with the mark, in either case of its ASCII letters. -/
def startsWithAnyCase (mark cs : List Char) : Bool :=
  (cs.take mark.length).map Char.toLower == mark.map Char.toLower

/-- Whether `'` at the start of `'` followed by `cs` opens a label: a name without a closing `'`. -/
def isLabel (g : Grammar) (cs : List Char) : Bool :=
  match cs with
  | [] => false
  | c :: _ => g.startsName c && (cs.drop (g.nameLength cs)).head? != some '\''

/-- The triple mark at the start of a text. -/
def tripleMark? (g : Grammar) (cs : List Char) : Option Char :=
  g.tripleQuotes.find? fun mark => [mark, mark, mark].isPrefixOf cs

/-- The length of a literal that one of the verbatim marks opens, if one does. -/
def verbatimLiteral (g : Grammar) (cs : List Char) : Except Unterminated (Option Nat) :=
  let opening := g.verbatimPrefixes.findSome? fun mark =>
    if startsWithAnyCase mark cs then
      let body := cs.drop mark.length
      match g.tripleMark? body with
      | some quote => some (Lexeme.tripleLength quote false (mark.length + 3) (body.drop 3))
      | none =>
        if body.head? = some '"' then
          some (Lexeme.verbatimLength (mark.length + 1) (body.drop 1))
        else none
    else none
  match opening with
  | none => .ok none
  | some none => .error .stringLiteral
  | some (some n) => .ok (some n)

/-- The number of letters in front of the quotation mark at the start of a text. -/
def literalPrefixLength (g : Grammar) (cs : List Char) : Nat :=
  let mark? := g.stringPrefixes.find? fun mark =>
    startsWithAnyCase mark cs &&
      match cs.drop mark.length with
      | [] => false
      | c :: _ => g.quotes.any (·.mark == c)
  (mark?.map List.length).getD 0

/-- The length of a literal in plain or triple quotation marks, if one starts the text. -/
def quotedLiteral (g : Grammar) (cs : List Char) : Except Unterminated (Option Nat) :=
  let letters := g.literalPrefixLength cs
  let body := cs.drop letters
  let length :=
    match g.tripleMark? body with
    | some mark => some (Lexeme.tripleLength mark g.tripleEscapes (letters + 3) (body.drop 3))
    | none =>
      match body with
      | [] => none
      | c :: rest =>
        match g.quotes.find? (·.mark == c) with
        | none => none
        | some q =>
          if g.lifetimes && c == '\'' && letters == 0 && g.isLabel rest then none
          else some (Lexeme.quotedLength q (letters + 1) rest)
  match length with
  | none => .ok none
  | some none => .error .stringLiteral
  | some (some n) => .ok (some n)

/-- The length of a raw literal, if one starts the text and no word runs into it. -/
def rawLiteral (g : Grammar) (afterWord : Bool) (cs : List Char) :
    Except Unterminated (Option Nat) :=
  if g.rawStrings && !afterWord then
    match Lexeme.rawOpening? cs with
    | none => .ok none
    | some (opening, hashes) =>
      match Lexeme.rawLength hashes opening (cs.drop opening) with
      | none => .error .rawStringLiteral
      | some n => .ok (some n)
  else .ok none

/-- The length of the literal at the start of a text, if there is one. -/
def stringLiteral (g : Grammar) (afterWord : Bool) (cs : List Char) :
    Except Unterminated (Option Nat) := do
  match ← g.rawLiteral afterWord cs with
  | some n => return some n
  | none =>
    match ← g.verbatimLiteral cs with
    | some n => return some n
    | none => g.quotedLiteral cs

/-- The length of the pattern literal at the start of a text, if an operand is due there. -/
def regexLiteral? (g : Grammar) (operandDue : Bool) (cs : List Char) : Option Nat :=
  if g.regexLiterals && operandDue then
    match cs with
    | '/' :: rest => Lexeme.regexLength false 1 rest
    | _ => none
  else none

/-! ## Punctuation -/

/-- Whether a character is an ASCII punctuation mark or symbol. -/
def isPunctuation (c : Char) : Bool :=
  0x21 ≤ c.toNat && c.toNat ≤ 0x7e && !c.isAlphanum

/-- The length of the operator at the start of a text. -/
def operatorLength (cs : List Char) : Nat :=
  ((operators.find? (·.isPrefixOf cs)).map List.length).getD 1

/-! ## One piece -/

/-- Whether a backslash in front of this text stands at the end of its line. -/
def startsWithLineEnd : List Char → Bool
  | '\n' :: _ | '\r' :: '\n' :: _ => true
  | _ => false

/-- The role and length of a token that starts a text, comments and literals first. -/
def nextToken (g : Grammar) (ctx : Context) (c : Char) (cs : List Char) :
    Except Unterminated (TokenKind × Nat) :=
  if g.lineComments.any (·.isPrefixOf (c :: cs)) then
    .ok (.comment, Lexeme.lineLength (c :: cs))
  else if g.blockComments ≠ .absent ∧ ['/', '*'].isPrefixOf (c :: cs) then
    match Lexeme.blockLength (g.blockComments == .nested) (c :: cs) with
    | some n => .ok (.comment, n)
    | none => .error .blockComment
  else
    match g.regexLiteral? ctx.operandDue (c :: cs) with
    | some n => .ok (.string, n)
    | none => do
      match ← g.stringLiteral ctx.afterWord (c :: cs) with
      | some n => return (.string, n)
      | none =>
        if c.isDigit || c == '.' && Lexeme.startsWithDigit cs then
          return (.number, Lexeme.numberLength (c :: cs))
        else if g.startsName c then
          let n := g.nameLength (c :: cs)
          if g.isKeyword (String.ofList ((c :: cs).take n)) then return (.keyword, n)
          else return (.identifier, n)
        else if isPunctuation c then
          return (.punctuation, operatorLength (c :: cs))
        else
          return (.unknown, 1)

/-- The role and the length of the piece that starts the text `c :: cs`. -/
def nextPiece (g : Grammar) (ctx : Context) (c : Char) (cs : List Char) :
    Except Unterminated (Role × Nat) :=
  if c = '\n' then .ok (.lineEnd, 1)
  else if Text.isBlank c || c == '\ufeff' then .ok (.blank, 1)
  else if c = '\\' ∧ startsWithLineEnd cs then .ok (.splice, 1)
  else if g.directives && c == '#' && ctx.lineStart then
    .ok (.directive, Lexeme.directiveLength 0 (c :: cs))
  else do
    let (kind, n) ← g.nextToken ctx c cs
    return (.token kind, n)

end Grammar

/-! ## All pieces -/

/-- Whether an operand may follow a token of the given kind and text. After a value or a closing
bracket a slash divides. -/
def operandDueAfter (kind : TokenKind) (chars : List Char) : Bool :=
  match kind with
  | .punctuation => !([[')'], [']'], ['\x7d']].contains chars)
  | .keyword =>
    !(["this", "super", "true", "false", "null", "undefined"].contains (String.ofList chars))
  | _ => false

/-- What is remembered after a piece. -/
def Context.after (ctx : Context) (piece : Piece) : Context where
  lineStart :=
    match piece.role with
    | .lineEnd => true
    | .blank | .splice => ctx.lineStart
    | .directive | .token _ => false
  operandDue :=
    match piece.role with
    | .token .comment => ctx.operandDue
    | .token kind => operandDueAfter kind piece.chars
    | _ => ctx.operandDue
  afterWord :=
    match piece.chars.getLast? with
    | some c => Text.isAlphanumeric c || c == '_'
    | none => ctx.afterWord

/-- A token that does not end, with the offset of its first byte. -/
structure LexicalError where
  offset : Nat
  cause : Unterminated
  deriving DecidableEq, Repr

/-- The number of bytes of some pieces. -/
def piecesSize (pieces : List Piece) : Nat :=
  sumBy (Text.byteSize ·.chars) pieces

/-- Cuts a text whose pieces so far are `done`, the last one first. -/
def cutFrom (g : Grammar) (ctx : Context) (done : List Piece) (cs : List Char) :
    Except LexicalError (List Piece) :=
  match cs with
  | [] => .ok done.reverse
  | c :: cs =>
    match g.nextPiece ctx c cs with
    | .error cause => .error ⟨piecesSize done, cause⟩
    | .ok (role, n) =>
      let piece := ⟨role, c :: cs.take (n - 1)⟩
      cutFrom g (ctx.after piece) (piece :: done) (cs.drop (n - 1))
termination_by cs.length
decreasing_by
  simp only [List.length_drop, List.length_cons]
  omega

/-- The pieces of a text, in order. -/
def cut (g : Grammar) (cs : List Char) : Except LexicalError (List Piece) :=
  cutFrom g {} [] cs

/-- A token as it stands in the text, with the offset of its first byte. -/
structure Lexeme where
  kind : TokenKind
  chars : List Char
  start : Nat
  deriving DecidableEq, Repr

/-- The offset after the last byte of a lexeme. -/
def Lexeme.stop (lexeme : Lexeme) : Nat :=
  lexeme.start + Text.byteSize lexeme.chars

/-- The tokens among pieces that start at `offset`, after those of `found`, the last one first. -/
def lexemesFrom (offset : Nat) (found : List Lexeme) : List Piece → List Lexeme
  | [] => found.reverse
  | piece :: pieces =>
    let next := offset + Text.byteSize piece.chars
    match piece.role with
    | .token kind => lexemesFrom next (⟨kind, piece.chars, offset⟩ :: found) pieces
    | _ => lexemesFrom next found pieces

/-- The tokens of a text, comments included. -/
def lex (g : Grammar) (cs : List Char) : Except LexicalError (List Lexeme) :=
  (cut g cs).map (lexemesFrom 0 [])

theorem lex_eq_ok_iff {g : Grammar} {cs : List Char} {lexemes : List Lexeme} :
    lex g cs = .ok lexemes ↔ ∃ pieces, cut g cs = .ok pieces ∧ lexemesFrom 0 [] pieces = lexemes := by
  rw [lex]
  cases cut g cs <;> simp [Except.map]

end CloneDetection
