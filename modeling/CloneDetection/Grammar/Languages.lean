import CloneDetection.Grammar.Basic
import CloneDetection.Language

/-!
# The grammars of the languages

One grammar a language, and `Language.grammar`, which picks it.
-/

namespace CloneDetection

namespace Grammar

/-- The grammar of Java. -/
def java : Grammar where
  keywords :=
    ["abstract", "assert", "break", "case", "catch", "class", "const", "continue", "default",
     "do", "else", "enum", "extends", "final", "finally", "for", "goto", "if", "implements",
     "import", "instanceof", "interface", "native", "new", "package", "private", "protected",
     "public", "record", "return", "static", "strictfp", "super", "switch", "synchronized",
     "this", "throw", "throws", "transient", "try", "var", "void", "volatile", "while", "yield",
     "true", "false", "null"]
  primitiveTypes := ["boolean", "byte", "char", "double", "float", "int", "long", "short"]
  noiseKeywords := ["final"]
  tripleQuotes := ['"']
  dollarInNames := true

/-- The grammar of Kotlin. -/
def kotlin : Grammar where
  keywords :=
    ["abstract", "as", "break", "by", "catch", "class", "companion", "const", "constructor",
     "continue", "data", "do", "else", "enum", "false", "final", "finally", "for", "fun", "if",
     "import", "in", "init", "inline", "interface", "internal", "is", "lateinit", "null",
     "object", "open", "operator", "out", "override", "package", "private", "protected", "public",
     "return", "sealed", "super", "suspend", "this", "throw", "true", "try", "typealias", "val",
     "var", "vararg", "when", "where", "while"]
  primitiveTypes := ["Boolean", "Byte", "Char", "Double", "Float", "Int", "Long", "Short"]
  noiseKeywords := ["final"]
  blockComments := .nested
  tripleQuotes := ['"']
  tripleEscapes := false

/-- The grammar of C. -/
def c : Grammar where
  keywords :=
    ["auto", "break", "case", "const", "continue", "default", "do", "else", "enum", "extern",
     "for", "goto", "if", "inline", "register", "restrict", "return", "signed", "sizeof",
     "static", "struct", "switch", "typedef", "union", "unsigned", "void", "volatile", "while",
     "_Bool", "_Static_assert", "NULL"]
  primitiveTypes := ["char", "double", "float", "int", "long", "short"]
  directives := true
  stringPrefixes := [['u', '8'], ['L'], ['u'], ['U']]

/-- The grammar of C++. -/
def cpp : Grammar where
  keywords :=
    ["alignas", "alignof", "auto", "break", "case", "catch", "class", "const", "consteval",
     "constexpr", "const_cast", "continue", "decltype", "default", "delete", "do", "dynamic_cast",
     "else", "enum", "explicit", "export", "extern", "false", "for", "friend", "goto", "if",
     "inline", "mutable", "namespace", "new", "noexcept", "nullptr", "operator", "private",
     "protected", "public", "reinterpret_cast", "return", "signed", "sizeof", "static",
     "static_assert", "static_cast", "struct", "switch", "template", "this", "throw", "true",
     "try", "typedef", "typeid", "typename", "union", "unsigned", "using", "virtual", "void",
     "volatile", "while"]
  primitiveTypes := ["bool", "char", "double", "float", "int", "long", "short", "wchar_t"]
  directives := true
  stringPrefixes := [['u', '8'], ['L'], ['u'], ['U']]

/-- The grammar of C#. -/
def csharp : Grammar where
  keywords :=
    ["abstract", "as", "base", "break", "case", "catch", "checked", "class", "const", "continue",
     "default", "delegate", "do", "else", "enum", "event", "explicit", "extern", "false",
     "finally", "fixed", "for", "foreach", "goto", "if", "implicit", "in", "interface",
     "internal", "is", "lock", "namespace", "new", "null", "object", "operator", "out",
     "override", "params", "private", "protected", "public", "readonly", "ref", "return",
     "sealed", "sizeof", "stackalloc", "static", "string", "struct", "switch", "this", "throw",
     "true", "try", "typeof", "unchecked", "unsafe", "using", "var", "virtual", "void",
     "volatile", "while"]
  primitiveTypes :=
    ["bool", "byte", "char", "decimal", "double", "float", "int", "long", "sbyte", "short",
     "uint", "ulong", "ushort"]
  noiseKeywords := ["readonly"]
  directives := true
  tripleQuotes := ['"']
  tripleEscapes := false
  stringPrefixes := [['$']]
  verbatimPrefixes := [['$', '@'], ['@', '$'], ['@']]

/-- The grammar of Go. -/
def go : Grammar where
  keywords :=
    ["break", "case", "chan", "const", "continue", "default", "defer", "else", "fallthrough",
     "for", "func", "go", "goto", "if", "import", "interface", "map", "package", "range",
     "return", "select", "struct", "switch", "type", "var", "nil", "true", "false"]
  primitiveTypes :=
    ["bool", "byte", "complex128", "complex64", "float32", "float64", "int", "int16", "int32",
     "int64", "int8", "rune", "string", "uint", "uint16", "uint32", "uint64", "uint8", "uintptr"]
  quotes := [⟨'"', false, true⟩, ⟨'\'', false, true⟩, ⟨'\x60', true, false⟩]

/-- The grammar of Rust. -/
def rust : Grammar where
  keywords :=
    ["as", "async", "await", "break", "const", "continue", "crate", "dyn", "else", "enum",
     "extern", "false", "fn", "for", "if", "impl", "in", "let", "loop", "match", "mod", "move",
     "mut", "pub", "ref", "return", "self", "Self", "static", "struct", "super", "trait", "true",
     "type", "unsafe", "use", "where", "while"]
  primitiveTypes :=
    ["bool", "char", "f32", "f64", "i128", "i16", "i32", "i64", "i8", "isize", "str", "u128",
     "u16", "u32", "u64", "u8", "usize"]
  noiseKeywords := ["mut"]
  blockComments := .nested
  quotes := [⟨'"', true, true⟩, ⟨'\'', false, true⟩]
  stringPrefixes := [['b'], ['c']]
  rawStrings := true
  lifetimes := true

/-- The grammar of Python. -/
def python : Grammar where
  keywords :=
    ["and", "as", "assert", "async", "await", "break", "class", "continue", "def", "del", "elif",
     "else", "except", "finally", "for", "from", "global", "if", "import", "in", "is", "lambda",
     "nonlocal", "not", "or", "pass", "raise", "return", "try", "while", "with", "yield", "True",
     "False", "None"]
  noiseKeywords := ["pass"]
  lineComments := [['#']]
  blockComments := .absent
  tripleQuotes := ['"', '\'']
  stringPrefixes := [['r', 'b'], ['b', 'r'], ['f', 'r'], ['r', 'f'], ['r'], ['b'], ['f'], ['u']]

/-- The grammar of JavaScript. -/
def javascript : Grammar where
  keywords :=
    ["async", "await", "break", "case", "catch", "class", "const", "continue", "debugger",
     "default", "delete", "do", "else", "export", "extends", "false", "finally", "for",
     "function", "if", "import", "in", "instanceof", "let", "new", "null", "of", "return",
     "static", "super", "switch", "this", "throw", "true", "try", "typeof", "undefined", "var",
     "void", "while", "with", "yield"]
  quotes := [⟨'"', false, true⟩, ⟨'\'', false, true⟩, ⟨'\x60', true, true⟩]
  regexLiterals := true
  dollarInNames := true

/-- The grammar of TypeScript. -/
def typescript : Grammar where
  keywords :=
    ["abstract", "any", "as", "async", "await", "break", "case", "catch", "class", "const",
     "continue", "declare", "default", "delete", "do", "else", "enum", "export", "extends",
     "false", "finally", "for", "function", "if", "implements", "import", "in", "instanceof",
     "interface", "keyof", "let", "namespace", "never", "new", "null", "of", "private",
     "protected", "public", "readonly", "return", "static", "super", "switch", "this", "throw",
     "true", "try", "type", "typeof", "undefined", "unknown", "var", "void", "while", "yield"]
  primitiveTypes := ["bigint", "boolean", "number", "string", "symbol"]
  noiseKeywords := ["readonly"]
  quotes := [⟨'"', false, true⟩, ⟨'\'', false, true⟩, ⟨'\x60', true, true⟩]
  regexLiterals := true
  dollarInNames := true

end Grammar

namespace Language

/-- The grammar of a language. -/
def grammar : Language → Grammar
  | java => Grammar.java
  | kotlin => Grammar.kotlin
  | c => Grammar.c
  | cpp => Grammar.cpp
  | csharp => Grammar.csharp
  | go => Grammar.go
  | rust => Grammar.rust
  | python => Grammar.python
  | javascript => Grammar.javascript
  | typescript => Grammar.typescript

end Language

end CloneDetection
