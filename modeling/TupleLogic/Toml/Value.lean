import TupleLogic.Toml.Datetime
import TupleLogic.Toml.Number

/-! Values of TOML documents, and the rules by which keys and headers build
tables. A table may be spelled out over several lines, but a key is given
once, and a table is opened by one header, or else by dotted keys alone. -/

namespace TupleLogic.Toml

inductive Value where
  | string (content : String)
  | integer (value : Int)
  | float
  | datetime
  /-- A number that is spelled well but has no value that a machine could hold. -/
  | unreadable
  | boolean (value : Bool)
  | array (elements : List Value)
  | table (entries : List (String × Value))
  deriving Repr, Inhabited

mutual
/-- Whether a value can be read with all that it holds. -/
def Value.isReadable : Value → Bool
  | .unreadable => false
  | .array elements => allReadable elements
  | .table entries => allEntriesReadable entries
  | _ => true

def allReadable : List Value → Bool
  | [] => true
  | v :: r => v.isReadable && allReadable r

def allEntriesReadable : List (String × Value) → Bool
  | [] => true
  | (_, v) :: r => v.isReadable && allEntriesReadable r
end

def IntegerText.toValue : IntegerText → Value
  | .value n => if fits128 n then .integer n else .unreadable
  | .noDigits => .unreadable

def FloatText.toValue (f : FloatText) : Value := if f.isFinite then .float else .unreadable

/-- How a table came to be. -/
inductive Origin where
  /-- Opened by a header of its own. -/
  | header
  /-- On the way to a header. -/
  | path
  /-- On the way to a dotted key. -/
  | dotted
  deriving DecidableEq, Repr

/-- An entry of a table that is still being written. -/
inductive Item where
  | value (v : Value)
  | table (origin : Origin) (entries : List (String × Item))
  /-- The elements that headers in double brackets have opened, latest first. -/
  | tables (elements : List (List (String × Item)))
  deriving Repr, Inhabited

abbrev Entries := List (String × Item)

/-- Changes the entry of a key, or makes one at the end. -/
def Entries.update (key : String) (f : Option Item → Option Item) : Entries → Option Entries
  | [] => (f none).map fun i => [(key, i)]
  | (k, i) :: r =>
    if k = key then (f (some i)).map fun i => (k, i) :: r
    else (Entries.update key f r).map ((k, i) :: ·)

/-- Changes the table that a header's path leads to. -/
def Entries.descend (f : Entries → Option Entries) : List String → Entries → Option Entries
  | [], es => f es
  | key :: keys, es => es.update key fun item =>
    match item with
    | none => (Entries.descend f keys []).map (.table .path)
    | some (.table origin inner) => (Entries.descend f keys inner).map (.table origin)
    | some (.tables (last :: before)) =>
      (Entries.descend f keys last).map fun last => .tables (last :: before)
    | some _ => none

/-- Gives a key its value, below the tables of a dotted path. -/
def Entries.insert (key : String) (v : Value) : List String → Entries → Option Entries
  | [], es => es.update key fun item =>
    match item with
    | none => some (.value v)
    | some _ => none
  | k :: ks, es => es.update k fun item =>
    match item with
    | none => (Entries.insert key v ks []).map (.table .dotted)
    | some (.table origin inner) =>
      if origin = .header || ks.isEmpty && origin ≠ .dotted then none
      else (Entries.insert key v ks inner).map (.table origin)
    | some (.tables (last :: before)) =>
      if ks.isEmpty then none
      else (Entries.insert key v ks last).map fun last => .tables (last :: before)
    | some _ => none

/-- Opens a table by its header. -/
def Entries.openTable (key : String) (es : Entries) : Option Entries :=
  es.update key fun item =>
    match item with
    | none => some (.table .header [])
    | some (.table .path inner) => some (.table .header inner)
    | some _ => none

/-- Opens a further element of an array of tables. -/
def Entries.openElement (key : String) (es : Entries) : Option Entries :=
  es.update key fun item =>
    match item with
    | none => some (.tables [[]])
    | some (.tables elements) => some (.tables ([] :: elements))
    | some _ => none

mutual
def Item.toValue : Item → Value
  | .value v => v
  | .table _ es => .table (entryValues es)
  | .tables elements => .array (elementValues elements [])

def entryValues : List (String × Item) → List (String × Value)
  | [] => []
  | (k, i) :: r => (k, i.toValue) :: entryValues r

/-- Elements latest first, before those already seen. -/
def elementValues : List (List (String × Item)) → List Value → List Value
  | [], seen => seen
  | es :: r, seen => elementValues r (.table (entryValues es) :: seen)
end

end TupleLogic.Toml
