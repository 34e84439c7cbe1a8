import Splice.Text.Quoted

/-!
# Tokens

The words of a source: identifiers, numbers, strings, keywords and punctuation,
each with the offset of its first byte.
-/

namespace Splice

inductive TokenKind where
  | endOfFile
  | identifier
  | number
  | string
  | import_
  | from_
  | enum
  | let_
  | fn
  | retain
  | return_
  | if_
  | else_
  | true
  | false
  | nil
  | openBrace
  | closeBrace
  | openParen
  | closeParen
  | dot
  | comma
  | colon
  | semicolon
  | dollar
  | assign
  | equal
  | notEqual
  | less
  | greater
  | plus
  | minus
  | star
  | slash
  | not
deriving DecidableEq, Repr, Inhabited

namespace TokenKind

/-- All kinds, in the order of their numbers. -/
def all : List TokenKind :=
  [endOfFile, identifier, number, string, import_, from_, enum, let_, fn, retain,
    return_, if_, else_, true, false, nil, openBrace, closeBrace, openParen,
    closeParen, dot, comma, colon, semicolon, dollar, assign, equal, notEqual, less,
    greater, plus, minus, star, slash, not]

def name : TokenKind → Text
  | endOfFile => "end of file"
  | identifier => "identifier"
  | number => "number"
  | string => "string"
  | import_ => "import"
  | from_ => "from"
  | enum => "enum"
  | let_ => "let"
  | fn => "fn"
  | retain => "retain"
  | return_ => "return"
  | if_ => "if"
  | else_ => "else"
  | true => "true"
  | false => "false"
  | nil => "nil"
  | openBrace => "\x7b"
  | closeBrace => "\x7d"
  | openParen => "("
  | closeParen => ")"
  | dot => "."
  | comma => ","
  | colon => ":"
  | semicolon => ";"
  | dollar => "$"
  | assign => "="
  | equal => "=="
  | notEqual => "!="
  | less => "<"
  | greater => ">"
  | plus => "+"
  | minus => "-"
  | star => "*"
  | slash => "/"
  | not => "!"

def ofNumber? (n : Int) : Option TokenKind :=
  if n < 0 then none else all[n.toNat]?

/-- The name of the kind with a number, whether or not there is such a kind. -/
def nameOfNumber (n : Int) : Text :=
  match ofNumber? n with
  | some k => k.name
  | none => "token(" ++ Text.ofInt n ++ ")"

def keywords : List TokenKind :=
  [import_, from_, enum, let_, fn, retain, return_, if_, else_, true, false, nil]

/-- The kind of a word: a keyword or an identifier. -/
def ofWord (t : Text) : TokenKind :=
  (keywords.find? (·.name == t)).getD identifier

/-- Punctuation that is a single character whatever follows it. -/
def punctuation : List TokenKind :=
  [openBrace, closeBrace, openParen, closeParen, dot, comma, colon, semicolon, dollar,
    less, greater, plus, minus, star, slash]

def ofPunctuation? (g : Glyph) : Option TokenKind :=
  punctuation.find? (·.name == g.bytes)

end TokenKind

/-- A token.  The text of a string is its value, without quotes and escapes. -/
structure Token where
  kind : TokenKind
  text : Text
  offset : Nat
deriving DecidableEq, Repr, Inhabited

/-- A token as diagnostics name it. -/
def Token.describe (t : Token) : Text :=
  match t.kind with
  | .identifier => t.kind.name ++ " " ++ Text.quote t.text
  | .number => t.kind.name ++ " " ++ Text.quote t.text
  | .string => "string literal"
  | kind => Text.quote kind.name

end Splice
