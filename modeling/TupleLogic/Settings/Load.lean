import TupleLogic.Settings
import TupleLogic.Toml.Document

/-! Settings from a TOML document with the tables `printer` and `lowering`.
What is absent keeps its default, and unknown keys are ignored. A table may
also be given as an array of its values, in the order in which they are
listed here. -/

namespace TupleLogic

inductive SettingsError where
  /-- No such file, or none that can be read. -/
  | unreadable
  /-- The document is malformed, or a value has the wrong kind. -/
  | malformed
  deriving DecidableEq, Repr

namespace Settings

open Toml

/-- The values of a table under the names of a record. What stands under other
names is ignored, but has to be readable. -/
def named? (names : List String) (entries : List (String × Value)) :
    Option (List (Option Value)) :=
  if entries.all fun (k, v) => names.contains k || v.isReadable then
    some (names.map fun n => entries.lookup n)
  else none

/-- The values of a record, by name from a table and by place from an array. A
date holds none of them. -/
def fields? (names : List String) : Value → Option (List (Option Value))
  | .table entries => named? names entries
  | .array elements => some ((List.range names.length).map fun i => elements[i]?)
  | .datetime => some (names.map fun _ => none)
  | _ => none

/-- A record whose values are all absent if it is itself absent. -/
def record? (names : List String) : Option Value → Option (List (Option Value))
  | none => some (names.map fun _ => none)
  | some v => fields? names v

/-- A natural number of 64 bits. -/
def natural? (default : Nat) : Option Value → Option Nat
  | none => some default
  | some (.integer n) => if 0 ≤ n && Text.fitsUnsigned64 n.toNat then some n.toNat else none
  | some _ => none

def boolean? (default : Bool) : Option Value → Option Bool
  | none => some default
  | some (.boolean b) => some b
  | some _ => none

def ofEntries? (entries : List (String × Value)) : Option Settings := do
  let [printer, lowering] ← named? ["printer", "lowering"] entries | none
  let [width] ← record? ["width"] printer | none
  let [resetNames, fieldTyping] ← record? ["reset_names", "field_typing"] lowering | none
  let default : Settings := {}
  return {
    width := ← natural? default.width width
    resetNames := ← boolean? default.resetNames resetNames
    fieldTyping := ← boolean? default.fieldTyping fieldTyping }

def ofToml (text : String) : Except SettingsError Settings :=
  match (parse? text).bind ofEntries? with
  | some s => .ok s
  | none => .error .malformed

/-- Settings from what a file holds, if it can be read. -/
def ofFile : Option String → Except SettingsError Settings
  | some text => ofToml text
  | none => .error .unreadable

/-- Settings from the file that the environment names, or the defaults if it
names none. -/
def load : Option (Option String) → Except SettingsError Settings
  | some file => ofFile file
  | none => .ok {}

end Settings

end TupleLogic
