import CloneDetection.Grammar.Languages
import CloneDetection.Lexeme.Piece
import CloneDetection.Normalization

/-!
# The token stream of a source

`tokenize` reads the bytes of a source in a language: it decodes the text, cuts it into lexemes,
drops those that the options leave out and writes each remaining one as the text to compare.
-/

namespace CloneDetection

/-- What is kept of a source and how far its tokens are told apart. -/
structure TokenizeOptions where
  normalization : Normalization := default
  includeComments : Bool := false
  dropNoise : Bool := false
  deriving DecidableEq, Repr

/-- Why a source has no token stream. -/
inductive TokenizeError
  | unsupportedLanguage (tag : String)
  | malformedSource (offset : Nat) (reason : String)
  deriving DecidableEq, Repr

namespace TokenizeError

/-- The name of the kind of failure. -/
def kind : TokenizeError → String
  | unsupportedLanguage _ => "unsupportedLanguage"
  | malformedSource _ _ => "malformedSource"

/-- The failure in words. -/
def message : TokenizeError → String
  | unsupportedLanguage tag => s!"unsupported language `{tag}`"
  | malformedSource offset reason => s!"malformed source at byte {offset}: {reason}"

end TokenizeError

/-- The text that stands for every identifier. -/
def identifierPlaceholder : String := "$id"

/-- The text that stands for every number. -/
def numberPlaceholder : String := "$num"

/-- The text that stands for every string. -/
def stringPlaceholder : String := "$str"

namespace Grammar

/-- The brackets and the semicolon, which carry no weight when noise is dropped. -/
def noisePunctuation : List (List Char) :=
  [['('], [')'], ['\x7b'], ['\x7d'], ['['], [']'], [';']]

/-- Whether a lexeme carries no weight. -/
def isNoise (g : Grammar) (kind : TokenKind) (chars : List Char) : Bool :=
  match kind with
  | .punctuation => noisePunctuation.contains chars
  | .keyword => g.isNoiseKeyword (String.ofList chars)
  | _ => false

/-- The text that a lexeme is compared by. The blanks of a comment count as one space each run. -/
def normalizedText (g : Grammar) (level : Normalization) (kind : TokenKind) (chars : List Char) :
    String :=
  match kind with
  | .identifier => if level.blindsIdentifiers then identifierPlaceholder else String.ofList chars
  | .keyword =>
    if level.blindsIdentifiers && g.isPrimitiveType (String.ofList chars) then identifierPlaceholder
    else String.ofList chars
  | .number => if level.blindsLiterals then numberPlaceholder else String.ofList chars
  | .string => if level.blindsLiterals then stringPlaceholder else String.ofList chars
  | .comment => String.ofList (Text.collapse chars)
  | .punctuation | .unknown => String.ofList chars

/-- Whether the options keep a lexeme. -/
def keeps (g : Grammar) (options : TokenizeOptions) (lexeme : Lexeme) : Bool :=
  (lexeme.kind != .comment || options.includeComments) &&
    !(options.dropNoise && g.isNoise lexeme.kind lexeme.chars)

/-- The token of a lexeme. -/
def tokenOf (g : Grammar) (level : Normalization) (lexeme : Lexeme) : Token where
  kind := lexeme.kind
  text := g.normalizedText level lexeme.kind lexeme.chars
  start := lexeme.start
  stop := lexeme.stop

/-- The tokens of some lexemes. -/
def tokensOf (g : Grammar) (options : TokenizeOptions) (lexemes : List Lexeme) : TokenStream :=
  ((lexemes.filter (g.keeps options)).map (g.tokenOf options.normalization)).toArray

end Grammar

namespace Language

/-- The token stream of a source in this language. -/
def tokenize (language : Language) (source : ByteArray) (options : TokenizeOptions) :
    Except TokenizeError TokenStream :=
  match Text.decode source with
  | .error offset => .error (.malformedSource offset "invalid UTF-8")
  | .ok text =>
    match lex language.grammar text.toList with
    | .error e => .error (.malformedSource e.offset e.cause.message)
    | .ok lexemes => .ok (language.grammar.tokensOf options lexemes)

end Language

/-- The token stream of a source in the language with the given tag. -/
def tokenize (source : ByteArray) (tag : String) (options : TokenizeOptions) :
    Except TokenizeError TokenStream :=
  match Language.ofTag? tag with
  | none => .error (.unsupportedLanguage tag)
  | some language => language.tokenize source options

end CloneDetection
