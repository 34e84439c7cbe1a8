import Splice.Config.Toml

/-!
# Documents of tables

The lines of a document build a table of tables.  A key is set once.  A table that
only came to be on the way to something deeper is *implied*, and one later line may
name it: a header then opens it, and a key finds it set already.  Which names are
implied, and which stand for arrays, is known by paths alone: all tables of an array
of tables share it.
-/

namespace Splice.Toml

/-- What a key stands for. -/
inductive Value where
  | string (value : Text)
  | integer (value : Int64)
  | float (value : Binary64)
  | boolean (value : Bool)
  | moment
  | array (values : List Value)
  | table (entries : List (Text × Value))
  /-- An array of tables, each with a header of its own. -/
  | tables (elements : List (List (Text × Value)))
deriving Repr, Inhabited

/-- Keys in the order in which they came to be. -/
abbrev Table := List (Text × Value)

namespace Table

def put (t : Table) (key : Text) (v : Value) : Table :=
  if t.any (·.1 == key) then t.map fun e => if e.1 == key then (key, v) else e
  else t ++ [(key, v)]

/-- The table that later lines add to: of several, the last one. -/
def within? : Value → Option Table
  | .table t => some t
  | .tables ts => ts.getLast?
  | _ => none

/-- A value whose table within has become another one. -/
def replaceWithin (t : Table) : Value → Value
  | .tables ts => .tables (ts.dropLast ++ [t])
  | _ => .table t

/-- The table at the end of a path. -/
def at? : KeyPath → Table → Option Table
  | [], t => some t
  | key :: path, t => do at? path (← within? (← t.lookup key))

/-- The table with a key set in the table at the end of a path. -/
def putAt (key : Text) (v : Value) : KeyPath → Table → Table
  | [], t => t.put key v
  | first :: path, t =>
      match t.lookup first with
      | none => t
      | some inner =>
          match within? inner with
          | none => t
          | some below => t.put first (replaceWithin (putAt key v path below) inner)

/-- The table with a dotted key set; what lies on the way has to be a table. -/
def putPath : KeyPath → Value → Table → Option Table
  | [], _, t => some t
  | [key], v, t => some (t.put key v)
  | key :: path, v, t =>
      match t.lookup key with
      | none => (putPath path v []).map fun inner => t.put key (.table inner)
      | some (.table inner) => (putPath path v inner).map fun inner => t.put key (.table inner)
      | some _ => none

end Table

/-- A document while its lines are read. -/
structure Draft where
  root : Table := []
  /-- Tables that nothing has named for their own sake. -/
  implied : List KeyPath := []
  /-- Keys that stand for arrays of terms. -/
  arrays : List KeyPath := []
deriving Repr, Inhabited

namespace Draft

def imply (d : Draft) (path : KeyPath) : Draft := { d with implied := path :: d.implied }

def settle (d : Draft) (path : KeyPath) : Draft :=
  { d with implied := d.implied.filter (· != path) }

def put (d : Draft) (context : KeyPath) (key : Text) (v : Value) : Draft :=
  { d with root := Table.putAt key v context d.root }

/-- Sets a key in the table at a path.  A key that is there already has to be
implied; it keeps what it stands for unless it is being filled as an array. -/
def set? (d : Draft) (context : KeyPath) (key : Text) (v : Value) : Option Draft := do
  let t ← Table.at? context d.root
  let path := context ++ [key]
  if (t.lookup key).isNone then some (d.put context key v)
  else if !d.implied.contains path then none
  else if d.arrays.contains path then some ((d.settle path).put context key v)
  else some (d.settle path)

/-- Makes the tables that lead to a deeper one, as far as they are missing. -/
def openParents : (above below : KeyPath) → Draft → Option Draft
  | _, [], d => some d
  | above, key :: below, d => do
      let t ← Table.at? above d.root
      let here := above ++ [key]
      let d := if (t.lookup key).isNone then (d.imply here).put above key (.table []) else d
      let _ ← Table.at? here d.root
      openParents here below d

def openTable (d : Draft) (path : KeyPath) : Option Draft := do
  let d ← openParents [] path.dropLast d
  d.set? path.dropLast (path.getLastD []) (.table [])

/-- Opens one more table of an array of tables. -/
def openElement (d : Draft) (path : KeyPath) : Option Draft := do
  let (context, key) := (path.dropLast, path.getLastD [])
  let d ← openParents [] context d
  let t ← Table.at? context d.root
  match t.lookup key with
  | none => some (d.put context key (.tables [[]]))
  | some (.tables ts) => some (d.put context key (.tables (ts ++ [[]])))
  | some _ => none

/-- Opens the tables that a dotted key passes through. -/
def openDotted : (context parents : KeyPath) → Draft → Option Draft
  | _, [], d => some d
  | context, key :: parents, d => do
      let here := context ++ [key]
      let d ← (d.imply here).openTable here
      openDotted here parents d

/-- The path under which the kind of a key is known; a nameless key shares that of
its table. -/
def kindPath (context : KeyPath) (key : Text) : KeyPath :=
  if !key.isEmpty then context ++ [key] else if context.isEmpty then [[]] else context

def noteArray (d : Draft) (path : KeyPath) : Draft := { d with arrays := path :: d.arrays }

def forgetArray (d : Draft) (path : KeyPath) : Draft :=
  { d with arrays := d.arrays.filter (· != path) }

def noteKind (d : Draft) (path : KeyPath) : Value → Draft
  | .array _ => d.noteArray path
  | _ => d.forgetArray path

mutual

/-- What a term stands for that is set to a key; tables in braces are filled on the
way. -/
def value (context : KeyPath) (key : Text) (inArray : Bool) :
    Term → Draft → Option (Value × Draft)
  | .string s, d => some (.string s, d)
  | .integer n, d => some (.integer n, d)
  | .float x, d => some (.float x, d)
  | .boolean b, d => some (.boolean b, d)
  | .moment, d => some (.moment, d)
  | .array ts, d => do
      let (vs, d) ← values context key ts (d.noteArray (kindPath context key))
      some (.array vs, d)
  | .braces es, d => do
      let here := context ++ [key]
      let d ← if inArray then (d.imply here).openElement here else (d.imply here).openTable here
      let (t, d) ← fill here es [] d
      some (.table t, d)

def values (context : KeyPath) (key : Text) : List Term → Draft → Option (List Value × Draft)
  | [], d => some ([], d)
  | t :: ts, d => do
      let (v, d) ← value context key true t d
      let (vs, d) ← values context key ts d
      some (v :: vs, d)

def fill (context : KeyPath) :
    List (KeyPath × Term) → Table → Draft → Option (Table × Draft)
  | [], filled, d => some (filled, d)
  | (path, t) :: es, filled, d => do
      let here := context ++ path.dropLast
      let key := path.getLastD []
      let d ← openDotted context path.dropLast d
      let (v, d) ← value here key false t d
      let d ← d.set? here key v
      let filled ← Table.putPath path v filled
      fill context es filled (d.noteKind (kindPath here key) v)

end

/-- Reads one more line; the path of the open table comes along. -/
def add (open_ : KeyPath) (d : Draft) : Line → Option (KeyPath × Draft)
  | .table path => (d.openTable path).map fun d => (path, d.forgetArray path)
  | .element path => (d.openElement path).map fun d => (path, d.forgetArray path)
  | .entry path t => do
      let here := open_ ++ path.dropLast
      let key := path.getLastD []
      let d ← openDotted open_ path.dropLast d
      let (v, d) ← value here key false t d
      let d ← d.set? here key v
      some (open_, d.noteKind (kindPath here key) v)

end Draft

/-- The table that the lines of a document build. -/
def document? (ls : List Line) : Option Table := do
  let (_, d) ← ls.foldlM (fun (open_, d) l => Draft.add open_ d l) (([], {}) : KeyPath × Draft)
  some d.root

end Splice.Toml
