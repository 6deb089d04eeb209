import TupleLogic.Term.Build

/-! Scripts: sorts, declarations, definitions and assertions, in the order in
which they were added. All declarations share one arena and are never removed
or changed. Functions, constants and definitions have names of their own,
which `index` maps to their positions; bound variables live in the arena only
and may share names. A command changes the script step by step, and stops where
it is refused. -/

namespace TupleLogic

inductive Declaration where
  | function (name : String) (inputs : List TermSort) (output : TermSort)
  | constant (name : String) (sort : TermSort)
  | definition (name : String) (parameters : List DeclId) (output : TermSort) (body : Term)
  /-- A variable of a quantifier or of a definition. -/
  | variable (name : String) (sort : TermSort)
  deriving Repr, Inhabited

namespace Declaration

def name : Declaration → String
  | .function n _ _ | .constant n _ | .definition n _ _ _ | .variable n _ => n

/-- The sort of a reference; a function or definition counts for its output. -/
def sort : Declaration → TermSort
  | .function _ _ s | .constant _ s | .definition _ _ s _ | .variable _ s => s

end Declaration

structure SortDeclaration where
  name : String
  arity : Nat
  /-- The number of elements that a solver's model reports. -/
  cardinality : Option Nat
  deriving DecidableEq, Repr

structure Assertion where
  name : Option String
  formula : Term
  deriving Repr

structure Script where
  sorts : List SortDeclaration := []
  arena : Array Declaration := #[]
  functions : List DeclId := []
  constants : List DeclId := []
  definitions : List DeclId := []
  index : List (String × DeclId) := []
  assertions : List Assertion := []
  deriving Repr

namespace Script

def empty : Script := {}

def decl (s : Script) (id : DeclId) : Except TermError Declaration :=
  match s.arena[id.index]? with
  | some d => .ok d
  | none => .error (.unknownDeclaration id)

/-- The function, constant or definition of that name. -/
def lookup (s : Script) (name : String) : Option DeclId := s.index.lookup name

def sortDeclaration? (s : Script) (name : String) : Option SortDeclaration :=
  s.sorts.find? (·.name = name)

/-- The position that the next declaration gets. -/
def nextId (s : Script) : DeclId := ⟨s.arena.size⟩

/-- No sort has the name yet. -/
def checkSortFree (s : Script) (name : String) : Except TermError Unit :=
  match s.sortDeclaration? name with
  | some _ => .error (.malformed (.sortTaken name))
  | none => .ok ()

/-- Some sort has the name. -/
def checkSortKnown (s : Script) (name : String) : Except TermError Unit :=
  match s.sortDeclaration? name with
  | some _ => .ok ()
  | none => .error (.malformed (.sortUnknown name))

/-- No function, constant or definition has the name yet. -/
def checkFresh (s : Script) (command : NamingCommand) (name : String) : Except TermError Unit :=
  match s.lookup name with
  | some _ => .error (.malformed (.nameTaken command name))
  | none => .ok ()

/-- Parameters are checked from left to right, and the first that is no bound
variable is reported. -/
def checkParameters (s : Script) (function : String) : List DeclId → Except TermError Unit
  | [] => .ok ()
  | id :: ids => do
    match ← s.decl id with
    | .variable _ _ => s.checkParameters function ids
    | d => .error (.malformed (.parameterNotBound d.name function))

def addVariable (s : Script) (name : String) (sort : TermSort) : DeclId × Script :=
  (s.nextId, { s with arena := s.arena.push (.variable name sort) })

def addAssertion (s : Script) (name : Option String) (formula : Term) : Script :=
  { s with assertions := s.assertions ++ [⟨name, formula⟩] }

/-- Work on a script. It may be refused at any step, and what was changed until
then stays changed. -/
abbrev Edit := ExceptT TermError (StateM Script)

namespace Edit

/-- Goes on if the script passes the check. -/
def require (check : Script → Except TermError Unit) : Edit Unit := do
  MonadExcept.ofExcept (check (← get))

def declareSort (name : String) (arity : Nat) : Edit Unit := do
  require (·.checkSortFree name)
  modify fun s => { s with sorts := s.sorts ++ [⟨name, arity, none⟩] }

/-- Records the cardinality of a declared sort, in place of an earlier one. -/
def setCardinality (name : String) (count : Nat) : Edit Unit := do
  require (·.checkSortKnown name)
  modify fun s => { s with sorts := s.sorts.map fun d =>
    if d.name = name then { d with cardinality := some count } else d }

/-- Adds a declaration under its name, which the caller knows to be free. -/
def register (d : Declaration) : Edit DeclId := do
  let id := (← get).nextId
  modify fun s => { s with arena := s.arena.push d }
  modify fun s => { s with index := (d.name, id) :: s.index }
  return id

def declareFunction (name : String) (inputs : List TermSort) (output : TermSort) : Edit DeclId := do
  require (·.checkFresh .declareFunction name)
  let id ← register (.function name inputs output)
  modify fun s => { s with functions := s.functions ++ [id] }
  return id

def declareConstant (name : String) (sort : TermSort) : Edit DeclId := do
  require (·.checkFresh .declareConstant name)
  let id ← register (.constant name sort)
  modify fun s => { s with constants := s.constants ++ [id] }
  return id

def defineFunction (name : String) (parameters : List DeclId) (output : TermSort) (body : Term) :
    Edit DeclId := do
  require (·.checkFresh .defineFunction name)
  require (·.checkParameters name parameters)
  let id ← register (.definition name parameters output body)
  modify fun s => { s with definitions := s.definitions ++ [id] }
  return id

/-- What the work gives and the script it makes, or why it is refused. -/
def outcome {α : Type} (m : Edit α) (s : Script) : Except TermError (α × Script) :=
  match m.run.run s with
  | (.ok a, t) => .ok (a, t)
  | (.error e, _) => .error e

end Edit

/-! Each command by itself, with the script that it makes. -/

def declareSort (s : Script) (name : String) (arity : Nat) : Except TermError Script :=
  ((Edit.declareSort name arity).outcome s).map Prod.snd

def setCardinality (s : Script) (name : String) (count : Nat) : Except TermError Script :=
  ((Edit.setCardinality name count).outcome s).map Prod.snd

def declareFunction (s : Script) (name : String) (inputs : List TermSort) (output : TermSort) :
    Except TermError (DeclId × Script) :=
  (Edit.declareFunction name inputs output).outcome s

def declareConstant (s : Script) (name : String) (sort : TermSort) :
    Except TermError (DeclId × Script) :=
  (Edit.declareConstant name sort).outcome s

def defineFunction (s : Script) (name : String) (parameters : List DeclId) (output : TermSort)
    (body : Term) : Except TermError (DeclId × Script) :=
  (Edit.defineFunction name parameters output body).outcome s

end Script

end TupleLogic
