import CloneDetection.Text.Blank

/-!
# Programming languages

The languages whose sources can be compared. A language is looked up by a tag (`Language.ofTag?`) or
by a file name extension (`Language.ofExtension?`), both read without regard to case and to blanks
around them.
-/

namespace CloneDetection

/-- A programming language with a grammar. -/
inductive Language
  | java
  | kotlin
  | c
  | cpp
  | csharp
  | go
  | rust
  | python
  | javascript
  | typescript
  deriving DecidableEq, Repr

namespace Language

/-- Every language, in the order in which they are listed to a user. -/
def all : List Language :=
  [java, kotlin, c, cpp, csharp, go, rust, python, javascript, typescript]

/-- The name under which files of a language are handed on. -/
def tag : Language → String
  | java => "java"
  | kotlin => "kotlin"
  | c => "c"
  | cpp => "cpp"
  | csharp => "csharp"
  | go => "go"
  | rust => "rust"
  | python => "python"
  | javascript => "javascript"
  | typescript => "typescript"

/-- The names and file name extensions by which a language is known. -/
def names : Language → List String
  | java => ["java"]
  | kotlin => ["kotlin", "kt", "kts"]
  | c => ["c", "h"]
  | cpp => ["cpp", "c++", "cxx", "cc", "hpp", "hh", "hxx"]
  | csharp => ["csharp", "c#", "cs"]
  | go => ["go", "golang"]
  | rust => ["rust", "rs"]
  | python => ["python", "py", "pyi"]
  | javascript => ["javascript", "js", "jsx", "mjs", "cjs"]
  | typescript => ["typescript", "ts", "tsx", "mts", "cts"]

/-- The language with the given tag, blanks around it and case aside. -/
def ofTag? (tag : String) : Option Language :=
  let name := Text.lower (Text.trim tag)
  all.find? fun l => l.names.contains name

/-- The language of files with the given extension, with or without its dot. -/
def ofExtension? (extension : String) : Option Language :=
  ofTag? (String.ofList (extension.toList.dropWhile (· == '.')))

end Language

end CloneDetection
