import Splice.Path
import Splice.Text.Percent

/-!
# Requests

A request names a method and a target.  The target is a path with an optional query,
a whole address that has a scheme and a host before its path, or a star for the
server itself.  A method that connects names a host and nothing else.  What a
request asks for is the path as it was written, escapes included: an escaped slash
is part of a name, a plain one divides names.
-/

namespace Splice

/-- What a request asks for. -/
inductive Target where
  | server
  /-- A path as it was written. -/
  | path (written : Text)
deriving DecidableEq, Repr, Inhabited

structure Request where
  method : Text
  target : Target
deriving DecidableEq, Repr, Inhabited

namespace Request

/-! ## Bytes -/

def isLetter (b : UInt8) : Bool := (65 ≤ b && b ≤ 90) || (97 ≤ b && b ≤ 122)

def isDigit (b : UInt8) : Bool := 48 ≤ b && b ≤ 57

private def isAmong (chars : Text) (b : UInt8) : Bool := chars.contains b

/-- Bytes that no part of an address has to escape. -/
def isUnreserved (b : UInt8) : Bool := isLetter b || isDigit b || isAmong "-_.~" b

def isMethodByte (b : UInt8) : Bool := isLetter b || isDigit b || isAmong "!#$%&'*+-.^_`|~" b

/-- Bytes that a path is written with when it is written anew. -/
def isPlainPathByte (b : UInt8) : Bool := isUnreserved b || isAmong "$&+,/:;=@" b

/-- Bytes that a path may be written with. -/
def isPathByte (b : UInt8) : Bool := isPlainPathByte b || isAmong "!'()*[]%" b

def isUserByte (b : UInt8) : Bool := isUnreserved b || isAmong "!$&'()*+,;=:%@" b

def isHostByte (b : UInt8) : Bool :=
  128 ≤ b || isUnreserved b || isAmong "!$&'()*+,;=:[]<>\"" b

/-- Blanks and controls stand in no target. -/
def isForbidden (b : UInt8) : Bool := b ≤ 32 || b == 127

/-! ## Targets -/

/-- Nothing, or a colon and the number of a service. -/
def isService : Text → Bool
  | [] => true
  | b :: digits => b == 58 && digits.all isDigit

/-- Escapes of a host stand for bytes outside ASCII, or for the percent sign. -/
def isEscapedHost : Text → Bool
  | [] => true
  | 37 :: high :: low :: rest =>
      match Text.Percent.byteOf? high low with
      | some b => (128 ≤ b || b == Text.Percent.sign) && isEscapedHost rest
      | none => false
  | b :: rest => isHostByte b && isEscapedHost rest

/-- A name or a number in brackets, with the optional number of a service. -/
def isHost (t : Text) : Bool :=
  match t with
  | 91 :: rest =>
      let (inner, service) := Text.cut 93 rest
      inner.contains 58 &&
        inner.all (fun b => (Text.hexDigit? b).isSome || b == 58 || b == 46) &&
        service.any isService
  | _ =>
      let service := (t.reverse.takeWhile (· != 58)).reverse
      !t.contains 91 && (service.length == t.length || service.all isDigit) && isEscapedHost t

/-- A host that a user may stand before. -/
def isAuthority (t : Text) : Bool :=
  let host := (t.reverse.takeWhile (· != 64)).reverse
  let user := t.take (t.length - host.length)
  user.all isUserByte && (Text.Percent.decode user).isOk && isHost host

/-- The path as it is looked at: as it was written if every byte may stand in a
path, and written anew otherwise. -/
def writtenPath? (raw : Text) : Option Text :=
  match Text.Percent.decode raw with
  | .ok decoded =>
      some (if raw.all isPathByte then raw else Text.Percent.encode isPlainPathByte decoded)
  | .error _ => none

/-- What follows the scheme of an address, if it starts with one. -/
def afterScheme? (t : Text) : Option Text :=
  let scheme := t.takeWhile fun b => isLetter b || isDigit b || isAmong "+-." b
  match scheme.head?.any isLetter, t.drop scheme.length with
  | true, 58 :: rest => some rest
  | _, _ => none

/-- The path of a target.  An address without a slash behind its scheme has an empty
one. -/
def pathOf? (target : Text) : Option Text :=
  let withoutQuery (t : Text) : Text := (Text.cut 63 t).1
  if target.any isForbidden then none
  else
    match afterScheme? target with
    | none =>
        let path := withoutQuery target
        if Path.isAbsolute path then writtenPath? path else none
    | some rest =>
        match withoutQuery rest with
        | 47 :: 47 :: rest =>
            let authority := rest.takeWhile (· != Path.slash)
            if isAuthority authority then writtenPath? (rest.drop authority.length) else none
        | path => if Path.isAbsolute path then writtenPath? path else some []

def get : Text := "GET"

def head : Text := "HEAD"

def connect : Text := "CONNECT"

/-- The request with a method and a target as they are sent; no method means that
something is to be got. -/
def parse? (method target : Text) : Option Request :=
  let method := if method.isEmpty then get else method
  if !method.all isMethodByte then none
  else if target == "*" then some ⟨method, .server⟩
  else
    let target := if method == connect && !Path.isAbsolute target then "http://" ++ target
      else target
    (pathOf? target).map fun path => ⟨method, .path path⟩

/-- Only reading requests are answered. -/
def isReading (r : Request) : Bool := r.method == get || r.method == head

/-- The name that a path consists of, if it is a single one. -/
def nameIn? : Text → Option Text
  | 47 :: name =>
      if name.contains Path.slash then none
      else some ((Text.Percent.decode name).toOption.getD name)
  | _ => none

/-- A path without needless elements; a slash at its end stays. -/
def cleanPath (path : Text) : Text :=
  let rooted := if Path.isAbsolute path then path else Path.slash :: path
  let cleaned := Path.clean rooted
  if Text.endsWith rooted [Path.slash] && cleaned != [Path.slash] then cleaned ++ [Path.slash]
  else cleaned

end Request

end Splice
