import Splice.Instant
import Splice.Number.Binary64
import Splice.Number.Integer
import Splice.Text.Quoted

/-!
# Reading TOML documents

A document is a list of lines: headers of tables, and keys that are set to terms.
Terms are strings, numbers, truth values, moments, arrays of terms and tables in
braces.  Whether the lines fit together is not decided here.
-/

namespace Splice.Toml

/-- The names that lead to a key or table. -/
abbrev KeyPath := List Text

/-- What a key is set to, as it is written. -/
inductive Term where
  | string (value : Text)
  | integer (value : Int64)
  | float (value : Binary64)
  | boolean (value : Bool)
  /-- A date, a time of day or both; nothing asks which one it is. -/
  | moment
  | array (terms : List Term)
  | braces (entries : List (KeyPath × Term))
deriving Repr, Inhabited

inductive Line where
  /-- The header of a table. -/
  | table (path : KeyPath)
  /-- The header of one more table in an array of tables. -/
  | element (path : KeyPath)
  | entry (path : KeyPath) (term : Term)
deriving Repr, Inhabited

/-! ## Lexical matters -/

def isSpace (b : UInt8) : Bool := b == 32 || b == 9

def skipSpace (t : Text) : Text := t.dropWhile isSpace

/-- Controls other than the tab may stand nowhere in a line. -/
def isControl (b : UInt8) : Bool := (b < 32 && b != 9) || b == 127

/-- What follows a comment; a comment holds no control characters. -/
def skipComment (t : Text) : Option Text :=
  match t with
  | 35 :: rest =>
      let body := rest.takeWhile fun b => b != 10 && b != 13
      if body.any isControl then none else some (rest.drop body.length)
  | _ => some t

/-- What follows a line end, if there is one here. -/
def lineEnd? : Text → Option Text
  | 10 :: rest => some rest
  | 13 :: 10 :: rest => some rest
  | _ => none

/-- What follows the rest of a line that may only hold blanks and a comment. -/
def restOfLine (t : Text) : Option Text := do
  let t ← skipComment (skipSpace t)
  match t with
  | [] => some []
  | _ => lineEnd? t

/-- Blanks, comments and line ends, as they may stand inside an array. -/
def skipLines : (fuel : Nat) → Text → Option Text
  | 0, t => some t
  | fuel + 1, t => do
      let t ← skipComment (skipSpace t)
      match lineEnd? t with
      | some rest => skipLines fuel rest
      | none => some t

/-! ## Strings on one line, and keys -/

/-- The character whose code point is given by some hexadecimal digits. -/
def codePoint? (width : Nat) (t : Text) : Option (Text × Text) := do
  if t.length < width then none
  let digits ← (t.take width).mapM Text.hexDigit?
  let point := Text.ofDigits 16 digits
  if Text.isScalar point then some (Text.encodePoint point, t.drop width) else none

/-- What an escape in a basic string stands for. -/
def unescape? : Text → Option (Text × Text)
  | [] => none
  | c :: rest =>
      if c == Text.byte 'b' then some ([8], rest)
      else if c == Text.byte 't' then some ([9], rest)
      else if c == Text.byte 'n' then some ([10], rest)
      else if c == Text.byte 'f' then some ([12], rest)
      else if c == Text.byte 'r' then some ([13], rest)
      else if c == Text.byte 'e' then some ([27], rest)
      else if c == Text.quoteByte || c == Text.backslash then some ([c], rest)
      else if c == Text.byte 'x' then codePoint? 2 rest
      else if c == Text.byte 'u' then codePoint? 4 rest
      else if c == Text.byte 'U' then codePoint? 8 rest
      else none

/-- The rest of a basic string, after its opening quote. -/
def basicString : (fuel : Nat) → Text → Option (Text × Text)
  | 0, _ => none
  | _ + 1, [] => none
  | fuel + 1, b :: rest =>
      if b == Text.quoteByte then some ([], rest)
      else if b == Text.backslash then do
        let (value, rest) ← unescape? rest
        let (tail, rest) ← basicString fuel rest
        some (value ++ tail, rest)
      else if isControl b then none
      else do
        let (tail, rest) ← basicString fuel rest
        some (b :: tail, rest)

/-- The rest of a literal string, after its opening quote. -/
def literalString (t : Text) : Option (Text × Text) :=
  let body := t.takeWhile (· != 39)
  match t.dropWhile (· != 39) with
  | [] => none
  | _ :: rest => if body.any isControl then none else some (body, rest)

def isBareKey (b : UInt8) : Bool :=
  (48 ≤ b && b ≤ 57) || (65 ≤ b && b ≤ 90) || (97 ≤ b && b ≤ 122) || b == 95 || b == 45

/-- One part of a key. -/
def keyPart (t : Text) : Option (Text × Text) :=
  match t with
  | 34 :: rest => basicString (rest.length + 1) rest
  | 39 :: rest => literalString rest
  | _ =>
      let bare := t.takeWhile isBareKey
      if bare.isEmpty then none else some (bare, t.drop bare.length)

def key : (fuel : Nat) → Text → Option (KeyPath × Text)
  | 0, _ => none
  | fuel + 1, t => do
      let (part, rest) ← keyPart (skipSpace t)
      match skipSpace rest with
      | 46 :: rest =>
          let (parts, rest) ← key fuel rest
          some (part :: parts, rest)
      | rest => some ([part], rest)

/-! ## Strings on several lines -/

/-- What stands between three quotes and the next three, as it is written; `seen` is
what was read before, last byte first.  More quotes may stand before the last three,
but the string ends at the last chance to end it. -/
def untilQuotes (quote : UInt8) (escapes : Bool) :
    (fuel : Nat) → (seen : Text) → Text → Option (Text × Text)
  | 0, _, _ => none
  | _ + 1, _, [] => none
  | fuel + 1, seen, b :: rest =>
      if b == quote then
        match Text.afterStart? [quote, quote] rest with
        | none => untilQuotes quote escapes fuel (b :: seen) rest
        | some after =>
            if after.head? != some quote then some (seen.reverse, after)
            else if [quote, quote].isPrefixOf seen &&
                !(escapes && seen[2]? == some Text.backslash) then none
            else untilQuotes quote escapes fuel (b :: seen) rest
      else if escapes && b == Text.backslash then
        match rest with
        | c :: after =>
            if c == quote || c == Text.backslash then
              untilQuotes quote escapes fuel (c :: b :: seen) after
            else untilQuotes quote escapes fuel (b :: seen) rest
        | [] => none
      else if b == 10 || (b == 13 && rest.head? == some 10) || !isControl b then
        untilQuotes quote escapes fuel (b :: seen) rest
      else none

/-- A line end right behind the opening quotes does not count. -/
def withoutFirstLineEnd (t : Text) : Text := (lineEnd? t).getD t

/-- A backslash at the end of a line joins it to the next text. -/
def joinLines : (fuel : Nat) → Text → Text
  | 0, t => t
  | _ + 1, [] => []
  | fuel + 1, b :: rest =>
      if b != Text.backslash then b :: joinLines fuel rest
      else if rest.head? == some Text.backslash then b :: b :: joinLines fuel rest.tail
      else
        let blanks := rest.takeWhile fun b => isSpace b || b == 10 || b == 13
        if blanks.contains 10 then joinLines fuel (rest.drop blanks.length)
        else b :: joinLines fuel rest

def unescapeAll : (fuel : Nat) → Text → Option Text
  | 0, _ => none
  | _ + 1, [] => some []
  | fuel + 1, b :: rest =>
      if b == Text.backslash then do
        let (value, rest) ← unescape? rest
        (unescapeAll fuel rest).map (value ++ ·)
      else (unescapeAll fuel rest).map (b :: ·)

/-- The rest of a basic string of several lines, after its opening quotes. -/
def basicLines (t : Text) : Option (Text × Text) := do
  let (raw, rest) ← untilQuotes Text.quoteByte true (t.length + 1) [] t
  let joined := joinLines (raw.length + 1) (withoutFirstLineEnd raw)
  some (← unescapeAll (joined.length + 1) joined, rest)

/-- The rest of a literal string of several lines, after its opening quotes. -/
def literalLines (t : Text) : Option (Text × Text) := do
  let (raw, rest) ← untilQuotes 39 false (t.length + 1) [] t
  some (withoutFirstLineEnd raw, rest)

/-! ## Numbers -/

/-- Digits with single underscores between them. -/
def isDigitRun (digit : UInt8 → Option Nat) (t : Text) : Bool :=
  (Text.splitAt 95 t).all fun run => !run.isEmpty && run.all fun b => (digit b).isSome

def hasLeadingZero (t : Text) : Bool := t.head? == some 48 && t.length != 1

/-- Digits without a needless zero in front. -/
def isDecimalRun (t : Text) : Bool := isDigitRun Text.digit? t && !hasLeadingZero t

def withoutUnderscores (t : Text) : Text := t.filter (· != 95)

def digitBelow (base : Nat) (b : UInt8) : Option Nat :=
  (Text.hexDigit? b).bind fun d => if d < base then some d else none

/-- The base that a letter behind a zero announces. -/
def baseOf? (letter : UInt8) : Option Nat :=
  if letter == Text.byte 'x' then some 16
  else if letter == Text.byte 'o' then some 8
  else if letter == Text.byte 'b' then some 2
  else none

def integer? (t : Text) : Option Term :=
  match Integer.parse (withoutUnderscores t) with
  | .ok n => some (.integer n)
  | .error _ => none

def float? (t : Text) : Option Term := (Binary64.parse? (withoutUnderscores t)).map .float

/-- Whether a text has the form of a float: digits, then a fraction, an exponent or
both. -/
def isFloatForm (body : Text) : Bool :=
  let isMark (b : UInt8) : Bool := Text.lowerByte b == Text.byte 'e'
  let mantissa := body.takeWhile (!isMark ·)
  let exponent := body.dropWhile (!isMark ·)
  let (whole, part) := Text.cut 46 mantissa
  isDecimalRun whole && (part.all (isDigitRun Text.digit?)) &&
    (exponent.isEmpty || isDigitRun Text.digit? (Integer.splitSign exponent.tail).2) &&
    (part.isSome || !exponent.isEmpty)

def number? (t : Text) : Option Term :=
  let (negative, body) := Integer.splitSign t
  let signed := body.length != t.length
  if body == "inf" then some (.float (Binary64.infinity negative))
  else if body == "nan" then some (.float (Binary64.nan negative))
  else
    match body.head? == some 48, (body[1]?).bind baseOf? with
    | true, some base =>
        if !signed && isDigitRun (digitBelow base) (body.drop 2) then integer? t else none
    | _, _ =>
        if isDecimalRun body then integer? t
        else if isFloatForm body then float? t
        else none

def isNumberByte (b : UInt8) : Bool := isBareKey b || b == 43 || b == 46

/-! ## Moments -/

/-- Bytes that a moment may be written with. -/
def isMomentByte (b : UInt8) : Bool :=
  (Text.digit? b).isSome || ("-:Tt .Zz+" : Text).contains b

/-- What follows a time of day; its seconds may be left out. -/
def afterTime? (t : Text) : Option Text := do
  let (hour, t) ← Instant.number? 2 t
  let (minute, t) ← Instant.number? 2 (← Instant.mark? 58 t)
  if 23 < hour || 59 < minute then none
  match Instant.mark? 58 t with
  | none => some t
  | some t =>
      let (second, t) ← Instant.number? 2 t
      if 59 < second then none
      let (_, t) ← Instant.fraction? t
      some t

/-- What follows a day. -/
def afterDate? (t : Text) : Option Text := do
  let (year, t) ← Instant.number? 4 t
  let (month, t) ← Instant.number? 2 (← Instant.mark? 45 t)
  let (day, t) ← Instant.number? 2 (← Instant.mark? 45 t)
  if Instant.isDay year month day then some t else none

/-- Whether a text is a day, a time of day, or both with or without a distance from
UTC. -/
def isMoment (t : Text) : Bool :=
  let t := t.map fun b => if b == 32 || b == 116 then 84 else if b == 122 then 90 else b
  match afterDate? t with
  | none => afterTime? t == some []
  | some [] => true
  | some rest =>
      match (Instant.mark? 84 rest).bind afterTime? with
      | none => false
      | some rest => rest.isEmpty || (Instant.offset? rest).isSome

/-- The moment at the front of a text: digits and a sign that belongs to none of the
numbers. -/
def moment? (t : Text) : Option (Text × Text) :=
  match t.dropWhile fun b => (Text.digit? b).isSome with
  | b :: rest =>
      if (b == 45 || b == 58) && rest.length + 1 != t.length then
        let written := t.takeWhile isMomentByte
        some ((written.reverse.dropWhile (· == 32)).reverse, t.drop written.length)
      else none
  | [] => none

/-! ## Terms -/

mutual

/-- The term at the front of a text, and what follows it. -/
def term : (fuel : Nat) → Text → Option (Term × Text)
  | 0, _ => none
  | fuel + 1, t =>
      match t with
      | 34 :: 34 :: 34 :: rest => (basicLines rest).map fun (s, r) => (.string s, r)
      | 34 :: rest => (basicString (rest.length + 1) rest).map fun (s, r) => (.string s, r)
      | 39 :: 39 :: 39 :: rest => (literalLines rest).map fun (s, r) => (.string s, r)
      | 39 :: rest => (literalString rest).map fun (s, r) => (.string s, r)
      | 91 :: rest => (elements fuel rest).map fun (ts, r) => (.array ts, r)
      | 123 :: rest => (members fuel rest).map fun (es, r) => (.braces es, r)
      | _ =>
          match moment? t with
          | some (written, rest) => if isMoment written then some (.moment, rest) else none
          | none =>
              let word := t.takeWhile isNumberByte
              let rest := t.drop word.length
              if word == "true" then some (.boolean true, rest)
              else if word == "false" then some (.boolean false, rest)
              else (number? word).map fun v => (v, rest)

/-- The elements of an array up to its closing bracket. -/
def elements : (fuel : Nat) → Text → Option (List Term × Text)
  | 0, _ => none
  | fuel + 1, t => do
      match ← skipLines t.length t with
      | 93 :: rest => some ([], rest)
      | t =>
          let (v, t) ← term fuel t
          match ← skipLines t.length t with
          | 93 :: rest => some ([v], rest)
          | 44 :: rest =>
              let (vs, rest) ← elements fuel rest
              some (v :: vs, rest)
          | _ => none

/-- The keys and terms of a table in braces up to its closing brace. -/
def members : (fuel : Nat) → Text → Option (List (KeyPath × Term) × Text)
  | 0, _ => none
  | fuel + 1, t => do
      match ← skipLines t.length t with
      | 125 :: rest => some ([], rest)
      | t =>
          let (path, t) ← key t.length t
          let (v, t) ← term fuel (skipSpace (← Text.afterStart? "=" t))
          match ← skipLines t.length t with
          | 125 :: rest => some ([(path, v)], rest)
          | 44 :: rest =>
              let (others, rest) ← members fuel rest
              some ((path, v) :: others, rest)
          | _ => none

end

/-! ## Lines -/

/-- The line at the front of a text that does not start with a blank, and what
follows it. -/
def line (t : Text) : Option (Line × Text) := do
  match t with
  | 91 :: 91 :: rest =>
      let (path, rest) ← key rest.length rest
      some (.element path, ← Text.afterStart? "]]" rest)
  | 91 :: rest =>
      let (path, rest) ← key rest.length rest
      some (.table path, ← Text.afterStart? "]" rest)
  | _ =>
      let (path, rest) ← key t.length t
      let (v, rest) ← term t.length (skipSpace (← Text.afterStart? "=" rest))
      some (.entry path v, rest)

def lines : (fuel : Nat) → Text → Option (List Line)
  | 0, _ => none
  | fuel + 1, t => do
      match ← skipLines t.length t with
      | [] => some []
      | t =>
          let (first, rest) ← line t
          (lines fuel (← restOfLine rest)).map (first :: ·)

/-- A text without a byte order mark in front. -/
def withoutMark : Text → Text
  | 0xFF :: 0xFE :: rest => rest
  | 0xFE :: 0xFF :: rest => rest
  | 0xEF :: 0xBB :: 0xBF :: rest => rest
  | t => t

def parse? (t : Text) : Option (List Line) :=
  let t := withoutMark t
  if t.isWellFormed then lines (t.length + 1) t else none

end Splice.Toml
