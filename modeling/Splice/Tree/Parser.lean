import Splice.Token.Lexer
import Splice.Tree.Basic

/-!
# Parsing

The parser turns the tokens of a source into its tree.  It makes up the symbols
and references of the tree as it meets names, numbering them on from those that
the program has already, and keeps a list of what it declares.  `Program.enact`
then carries the declarations out, in the same order and with the same numbers;
what was declared before a mistake is carried out as well.

The grammar:

* file      = statement* end
* statement = import | enum | let | fn | retain | return | if | block | simple
* import    = "import" [ name "from" ] string
* enum      = "enum" name block-of (name ("=" "-"? number)? ","?)*
* let       = "let" name "=" expr
* fn        = "fn" name "(" (name ("," name)*)? ")" block
* retain    = "retain" name ("," name)*
* return    = "return" expr?
* if        = "if" expr block ("else" (if | block))?
* simple    = expr ("=" expr)?
* expr      = sum (("==" | "!=" | "<" | ">") sum)*
* sum       = product (("+" | "-") product)*
* product   = unary (("*" | "/") unary)*
* unary     = ("!" | "-") unary | postfixed
* postfixed = primary ("." name | "(" args ")")*
* primary   = number | string | "true" | "false" | "nil" | name
    | "$" name "(" args ")" | "(" expr ")" | object
-/

namespace Splice

/-- What a source adds to the program. -/
inductive Declaration where
  | symbol (name : Text)
  | property (name : Text)
  | reference (qualifier name member : Text) (offset : Nat)
  | import_ (qualifier path : Text) (offset : Nat)
  /-- A made-up name was taken for the alias of the next import. -/
  | generatedAlias
  | enum (name : Text) (offset : Nat)
  | entry (enum : Text) (entry : EnumEntry)
  | retain (name : Text)
deriving DecidableEq, Repr, Inhabited

namespace Parser

/-- What the parser has yet to read, and what it has made up so far. -/
structure State where
  /-- The tokens before the end of the file. -/
  rest : List Token
  /-- The offset of the end of the file. -/
  finish : Nat
  aliases : List Text
  enums : List Text
  generated : Nat
  nextSymbol : SymbolId
  nextReference : ReferenceId
  /-- The latest declaration comes first. -/
  declared : List Declaration := []
deriving Repr, Inhabited

/-- A message about an offset. -/
structure Mistake where
  message : Text
  offset : Nat
deriving DecidableEq, Repr, Inhabited

end Parser

/-- Parsers keep what they have declared when they fail. -/
abbrev Parser := EStateM Parser.Mistake Parser.State

namespace Parser

/-! ## Tokens -/

def State.peekAt (s : State) (n : Nat) : Token := s.rest.getD n ⟨.endOfFile, [], s.finish⟩

def peekAt (n : Nat) : Parser Token := do return (← get).peekAt n

def peek : Parser Token := peekAt 0

def skip : Parser Unit := modify fun s => { s with rest := s.rest.tail }

/-- The next token, which is stepped over. -/
def advance : Parser Token := do
  let t ← peek
  skip
  return t

/-- Steps over a token of a kind, if it is next. -/
def accept (kind : TokenKind) : Parser Bool := do
  if (← peek).kind == kind then
    skip
    return true
  else return false

def failAt {α : Type} (t : Token) (message : Text) : Parser α := throw ⟨message, t.offset⟩

def expect (kind : TokenKind) : Parser Token := do
  let t ← peek
  if t.kind == kind then advance
  else failAt t ("expected " ++ Text.quote kind.name ++ ", found " ++ t.describe)

def skipSemicolons : Parser Unit :=
  modify fun s => { s with rest := s.rest.dropWhile (·.kind == .semicolon) }

/-! ## Declarations -/

def declare (d : Declaration) : Parser Unit :=
  modify fun s => { s with declared := d :: s.declared }

def newSymbol (name : Text) : Parser SymbolId := do
  let s ← get
  set { s with nextSymbol := s.nextSymbol + 1, declared := .symbol name :: s.declared }
  return s.nextSymbol

def newProperty (name : Text) : Parser SymbolId := do
  let s ← get
  set { s with nextSymbol := s.nextSymbol + 1, declared := .property name :: s.declared }
  return s.nextSymbol

def newReference (qualifier name member : Text) (offset : Nat) : Parser ReferenceId := do
  let s ← get
  set { s with
    nextReference := s.nextReference + 1
    declared := .reference qualifier name member offset :: s.declared }
  return s.nextReference

def addImport (qualifier path : Text) (offset : Nat) : Parser Unit := do
  let s ← get
  if s.aliases.contains qualifier then throw ⟨Namespace.aliasDeclaredTwice qualifier, offset⟩
  else
    set { s with
      aliases := qualifier :: s.aliases
      declared := .import_ qualifier path offset :: s.declared }

def newAlias : Parser Text := do
  let s ← get
  set { s with generated := s.generated + 1, declared := .generatedAlias :: s.declared }
  return Program.generatedName "import" s.generated

/-- The value of a number token. -/
def valueOf (t : Token) : Int64 := Int64.ofNat ((Text.toNat? t.text).getD 0)

/-! ## Declarations at the top level -/

/-- `import` has been seen. -/
def importStatement : Parser Stmt := do
  let start ← advance
  if (← peek).kind == .string then
    let path ← advance
    let qualifier ← newAlias
    addImport qualifier path.text path.offset
    return .import_ start.offset qualifier path.text
  else
    let qualifier ← expect .identifier
    let _ ← expect .from_
    let path ← expect .string
    addImport qualifier.text path.text qualifier.offset
    return .import_ start.offset qualifier.text path.text

/-- The value after an entry's name, if it has one. -/
def entryValue : Parser (Option Int64) := do
  if ← accept .assign then
    let negative ← accept .minus
    let number ← expect .number
    let value := valueOf number
    return some (if negative then -value else value)
  else return none

/-- The entries of an enum up to the closing brace; `seen` are those before. -/
def entries (enum : Text) : (fuel : Nat) → (seen : List Text) → Parser (List Text)
  | 0, _ => do failAt (← peek) "enum is too long"
  | fuel + 1, seen => do
      if ← accept .closeBrace then return seen
      let name ← expect .identifier
      let value ← entryValue
      if seen.contains name.text then
        throw ⟨Enumeration.hasEntryAlready enum name.text, name.offset⟩
      declare (.entry enum (EnumEntry.ofValue? name.text value name.offset))
      let _ ← accept .comma
      entries enum fuel (seen ++ [name.text])

/-- `enum` has been seen. -/
def enumStatement : Parser Stmt := do
  let start ← advance
  let name ← expect .identifier
  if (← get).enums.contains name.text then
    throw ⟨Enumeration.declaredTwice name.text, name.offset⟩
  modify fun s => { s with
    enums := name.text :: s.enums
    declared := .enum name.text name.offset :: s.declared }
  let _ ← expect .openBrace
  let names ← entries name.text ((← get).rest.length + 1) []
  return .enum start.offset name.text names

/-- The names of a retain statement; `seen` are those before. -/
def retainedNames : (fuel : Nat) → (seen : List Text) → Parser (List Text)
  | 0, _ => do failAt (← peek) "retain is too long"
  | fuel + 1, seen => do
      let name ← expect .identifier
      declare (.retain name.text)
      if ← accept .comma then retainedNames fuel (seen ++ [name.text])
      else return seen ++ [name.text]

/-- `retain` has been seen. -/
def retainStatement : Parser Stmt := do
  let start ← advance
  let names ← retainedNames ((← get).rest.length + 1) []
  return .retain start.offset names

def params : (fuel : Nat) → (seen : List Param) → Parser (List Param)
  | 0, _ => do failAt (← peek) "parameter list is too long"
  | fuel + 1, seen => do
      if ← accept .closeParen then return seen
      if !seen.isEmpty then
        let _ ← expect .comma
      let name ← expect .identifier
      let symbol ← newSymbol name.text
      params fuel (seen ++ [⟨name.text, symbol⟩])

/-! ## Expressions -/

/-- `alias.name`, or `alias.name.member`, of which the first two parts are known
to be there. -/
def importedName : Parser Expr := do
  let qualifier ← advance
  skip
  let name ← advance
  if (← peek).kind == .dot && (← peekAt 1).kind == .identifier then
    skip
    let member ← advance
    let property ← newProperty member.text
    let reference ← newReference qualifier.text name.text member.text qualifier.offset
    return .imported qualifier.offset reference (some property) none
  else
    let reference ← newReference qualifier.text name.text [] qualifier.offset
    return .imported qualifier.offset reference none none

/-- Whether the next token is an import alias with a name behind it. -/
def startsImported : Parser Bool := do
  let s ← get
  return (s.peekAt 1).kind == .dot && (s.peekAt 2).kind == .identifier &&
    s.aliases.contains (s.peekAt 0).text

/-- The level at which an operator follows, if the next token is one. -/
def nextOperator? (level : Nat) : Parser (Option BinaryOp) := do
  match BinaryOp.ofToken? (← peek).kind with
  | some op => return if op.level == level then some op else none
  | none => return none

mutual

/-- Operations of a level and tighter ones; level 3 has no operator between its
operands. -/
def binary : (fuel level : Nat) → Parser Expr
  | 0, _ => do failAt (← peek) "expression is nested too deeply"
  | fuel + 1, level =>
      if 3 ≤ level then unary fuel
      else do
        let left ← binary fuel (level + 1)
        binaryRest fuel level left

/-- Further operands of a level, grouped to the left. -/
def binaryRest : (fuel level : Nat) → Expr → Parser Expr
  | 0, _, _ => do failAt (← peek) "expression is nested too deeply"
  | fuel + 1, level, left => do
      match ← nextOperator? level with
      | none => return left
      | some op =>
          let sign ← advance
          let right ← binary fuel (level + 1)
          binaryRest fuel level (.binary sign.offset op left right)

def unary : (fuel : Nat) → Parser Expr
  | 0 => do failAt (← peek) "expression is nested too deeply"
  | fuel + 1 => do
      match UnaryOp.ofToken? (← peek).kind with
      | some op =>
          let sign ← advance
          let operand ← unary fuel
          return .unary sign.offset op operand
      | none =>
          let x ← primary fuel
          postfixed fuel x

/-- Member accesses and calls behind an expression. -/
def postfixed : (fuel : Nat) → Expr → Parser Expr
  | 0, _ => do failAt (← peek) "expression is nested too deeply"
  | fuel + 1, x => do
      match (← peek).kind with
      | .dot =>
          skip
          let name ← expect .identifier
          let property ← newProperty name.text
          postfixed fuel (.member x.offset x name.text property none)
      | .openParen =>
          let paren ← advance
          let args ← args fuel []
          postfixed fuel (.call paren.offset x args)
      | _ => return x

/-- Arguments up to the closing parenthesis; `seen` are those before. -/
def args : (fuel : Nat) → (seen : List Expr) → Parser (List Expr)
  | 0, _ => do failAt (← peek) "argument list is too long"
  | fuel + 1, seen => do
      if ← accept .closeParen then return seen
      if !seen.isEmpty then
        let _ ← expect .comma
      let arg ← binary fuel 0
      args fuel (seen ++ [arg])

def primary : (fuel : Nat) → Parser Expr
  | 0 => do failAt (← peek) "expression is nested too deeply"
  | fuel + 1 => do
      let t ← peek
      match t.kind with
      | .number =>
          skip
          return .number t.offset (valueOf t)
      | .string =>
          skip
          return .string t.offset t.text
      | .true =>
          skip
          return .bool t.offset true
      | .false =>
          skip
          return .bool t.offset false
      | .nil =>
          skip
          return .nil t.offset
      | .identifier =>
          if ← startsImported then importedName
          else
            skip
            return .name t.offset t.text .unbound
      | .dollar =>
          skip
          let name ← expect .identifier
          let _ ← expect .openParen
          let args ← args fuel []
          return .syscall t.offset name.text args
      | .openParen =>
          skip
          let x ← binary fuel 0
          let _ ← expect .closeParen
          return x
      | .openBrace =>
          skip
          let (keys, values) ← fields fuel [] []
          return .object t.offset keys values
      | _ => failAt t ("unexpected " ++ t.describe)

/-- Fields of an object up to the closing brace; `keys` and `values` are those
before. -/
def fields :
    (fuel : Nat) → (keys : List SymbolId) → (values : List Expr) →
      Parser (List SymbolId × List Expr)
  | 0, _, _ => do failAt (← peek) "object is too long"
  | fuel + 1, keys, values => do
      if ← accept .closeBrace then return (keys, values)
      let key ← expect .identifier
      let _ ← expect .colon
      let value ← binary fuel 0
      let property ← newProperty key.text
      let _ ← accept .comma
      fields fuel (keys ++ [property]) (values ++ [value])

end

def expression (fuel : Nat) : Parser Expr := binary fuel 0

/-! ## Statements -/

/-- `let` has been seen. -/
def letStatement (fuel : Nat) : Parser Stmt := do
  let start ← advance
  let name ← expect .identifier
  let _ ← expect .assign
  let value ← expression fuel
  let symbol ← newSymbol name.text
  return .let_ start.offset name.text symbol value none

/-- `return` has been seen. -/
def returnStatement (fuel : Nat) : Parser Stmt := do
  let start ← advance
  match (← peek).kind with
  | .closeBrace => return .return_ start.offset none
  | .semicolon => return .return_ start.offset none
  | .endOfFile => return .return_ start.offset none
  | _ =>
      let value ← expression fuel
      return .return_ start.offset (some value)

/-- The spelling of the reference that an imported name makes, which is the
latest one. -/
def latestReference : Parser Text := do
  match (← get).declared.find? fun d => d matches .reference .. with
  | some (.reference qualifier name member offset) =>
      return Reference.spelling ⟨qualifier, name, member, offset, none, .unresolved⟩
  | _ => return []

/-- An expression, or an assignment to a name or a member. -/
def simpleStatement (fuel : Nat) : Parser Stmt := do
  let x ← expression fuel
  let spelling ← if x matches .imported .. then latestReference else pure []
  if (← peek).kind != .assign then return .expr x
  let sign ← advance
  let value ← expression fuel
  match x with
  | .name offset name _ =>
      let symbol ← newSymbol name
      return .assign offset name symbol value none
  | .member offset target _ property _ => return .setMember offset target property value
  | .imported _ _ _ _ => failAt sign ("cannot assign to imported name " ++ spelling)
  | _ => failAt sign "invalid assignment target"

mutual

def statement : (fuel : Nat) → (top : Bool) → Parser Stmt
  | 0, _ => do failAt (← peek) "statement is nested too deeply"
  | fuel + 1, top => do
      let t ← peek
      match t.kind with
      | .import_ =>
          if top then importStatement
          else failAt t "imports are only allowed at the top level"
      | .enum =>
          if top then enumStatement
          else failAt t "enums are only allowed at the top level"
      | .let_ => letStatement fuel
      | .fn => fnStatement fuel
      | .retain => retainStatement
      | .return_ => returnStatement fuel
      | .if_ => ifStatement fuel
      | .openBrace =>
          let body ← block fuel
          return .block t.offset body
      | _ => simpleStatement fuel

/-- `fn` has been seen. -/
def fnStatement : (fuel : Nat) → Parser Stmt
  | 0 => do failAt (← peek) "statement is nested too deeply"
  | fuel + 1 => do
      let start ← advance
      let name ← expect .identifier
      let symbol ← newSymbol name.text
      let _ ← expect .openParen
      let ps ← params ((← get).rest.length + 1) []
      let t ← peek
      if t.kind != .openBrace then
        failAt t ("expected function body, found " ++ t.describe)
      let body ← block fuel
      return .fn start.offset name.text symbol ps t.offset body none

/-- `if` has been seen. -/
def ifStatement : (fuel : Nat) → Parser Stmt
  | 0 => do failAt (← peek) "statement is nested too deeply"
  | fuel + 1 => do
      let start ← advance
      let condition ← expression fuel
      let t ← peek
      if t.kind != .openBrace then
        failAt t ("expected block after if condition, found " ++ t.describe)
      let then_ ← block fuel
      if ← accept .else_ then
        let e ← peek
        match e.kind with
        | .if_ =>
            let other ← ifStatement fuel
            return .if_ start.offset condition t.offset then_ (some other)
        | .openBrace =>
            let other ← block fuel
            return .if_ start.offset condition t.offset then_ (some (.block e.offset other))
        | _ => failAt e ("expected if or block after else, found " ++ e.describe)
      else return .if_ start.offset condition t.offset then_ none

def block : (fuel : Nat) → Parser (List Stmt)
  | 0 => do failAt (← peek) "statement is nested too deeply"
  | fuel + 1 => do
      let start ← expect .openBrace
      skipSemicolons
      blockRest fuel start []

/-- Statements up to the closing brace; `seen` are those before. -/
def blockRest : (fuel : Nat) → (start : Token) → (seen : List Stmt) → Parser (List Stmt)
  | 0, start, _ => failAt start "block is too long"
  | fuel + 1, start, seen => do
      if ← accept .closeBrace then return seen
      if (← peek).kind == .endOfFile then failAt start "block is never closed"
      let s ← statement fuel false
      skipSemicolons
      blockRest fuel start (seen ++ [s])

end

/-- Statements up to the end of the file; `seen` are those before. -/
def fileRest : (fuel : Nat) → (seen : List Stmt) → Parser (List Stmt)
  | 0, _ => do failAt (← peek) "file is too long"
  | fuel + 1, seen => do
      if (← peek).kind == .endOfFile then return seen
      let s ← statement fuel true
      skipSemicolons
      fileRest fuel (seen ++ [s])

/-- No more than eight nested calls stand between two tokens. -/
def fuelFor (tokens : Nat) : Nat := 10 * tokens + 20

def file : Parser (List Stmt) := do
  let fuel := fuelFor (← get).rest.length
  skipSemicolons
  fileRest fuel []

end Parser

namespace Program

def enactOne (n : NamespaceId) (p : Program) : Declaration → Program
  | .symbol name => (p.addSymbol n name).2
  | .property name => (p.addProperty name).2
  | .reference qualifier name member offset => (p.addReference n qualifier name member offset).2
  | .import_ qualifier path offset => p.addPending n qualifier path offset
  | .generatedAlias => { p with generated := p.generated + 1 }
  | .enum name offset => p.addEnum n name offset
  | .entry enum entry => p.addEntry n enum entry
  | .retain name => p.retainProperty name

/-- Carries out the declarations of a namespace in order. -/
def enact (p : Program) (n : NamespaceId) (ds : List Declaration) : Program :=
  ds.foldl (enactOne n) p

/-- Where the parser of a namespace starts. -/
def parserState (p : Program) (n : NamespaceId) (tokens : List Token) : Parser.State where
  rest := tokens.dropLast
  finish := (p.spaceAt n).unit.text.length
  aliases := (p.spaceAt n).aliases
  enums := (p.spaceAt n).enums.map (·.name)
  generated := p.generated
  nextSymbol := p.symbols.size
  nextReference := p.references.size

/-- The statements of a namespace's source, with everything they declare added to
the program. -/
def parseStatements (n : NamespaceId) : Linking (List Stmt) := do
  let p ← get
  let unit := (p.spaceAt n).unit
  match unit.tokens with
  | .error d => throw (.source d)
  | .ok tokens =>
      match Parser.file (p.parserState n tokens) with
      | .ok statements s =>
          set (p.enact n s.declared.reverse)
          return statements
      | .error e s =>
          set (p.enact n s.declared.reverse)
          throw (.source ⟨e.message, some unit, e.offset⟩)

end Program

end Splice
