import TupleLogic.SortInference
import TupleLogic.NameSupply
import TupleLogic.Encoding.Error

/-! The state of an encoding: the script so far and the supply of names. A
failure ends the encoding, but the names drawn until then stay drawn, so the
state outlives an error. -/

namespace TupleLogic.Encoding

open Relational

structure Progress where
  script : Script
  names : NameSupply
  deriving Repr

abbrev Encoder := ExceptT EncodeError (StateM Progress)

namespace Encoder

def unsupported {α : Type} (cause : Unsupported) : Encoder α := throw (.unsupported cause)

/-- Takes a result of the term layer over. -/
def liftTerm {α : Type} (r : Except TermError α) : Encoder α :=
  match r with
  | .ok a => pure a
  | .error e => throw (.term e)

def sortOf (t : Term) : Encoder TermSort := do liftTerm ((← get).script.sortOf t)

/-- Works on the script, which keeps what was done to it even where the work is
refused. -/
def edit {α : Type} (work : Script.Edit α) : Encoder α := do
  let (result, script) := work.run.run (← get).script
  modify fun p => { p with script := script }
  liftTerm result

def assertTerm (name : Option String) (formula : Term) : Encoder Unit :=
  modify fun p => { p with script := p.script.addAssertion name formula }

def drawName (draw : NameSupply → String × NameSupply) : Encoder String := do
  let (name, names) := draw (← get).names
  modify fun p => { p with names := names }
  return name

/-- A bound variable under a name of its own. -/
def freshVariable (sort : TermSort) : Encoder DeclId := do
  let name ← drawName NameSupply.freshVariable
  let (id, script) := (← get).script.addVariable name sort
  modify fun p => { p with script := script }
  return id

/-- A constant under a name of its own. -/
def freshElement (sort : TermSort) : Encoder DeclId := do
  let name ← drawName NameSupply.freshElement
  edit (.declareConstant name sort)

/-- A set under a name of its own. -/
def freshSet (sort : TermSort) : Encoder DeclId := do
  let name ← drawName NameSupply.freshSet
  edit (.declareFunction name [] sort)

end Encoder

/-- What the encoding of expressions refers to: the model, and the relations
that stand for its signatures, fields and built-in relations. -/
structure Vocabulary where
  model : Model
  univRelation : DeclId
  noneRelation : DeclId
  idenRelation : DeclId
  signatures : List DeclId
  fields : List (List DeclId)
  deriving Repr

namespace Vocabulary

def sigRelation (v : Vocabulary) (id : SigId) : Encoder Term :=
  match v.signatures[id.index]? with
  | some d => return .ref d
  | none => Encoder.unsupported (.unknownSignature id)

def fieldRelation (v : Vocabulary) (id : FieldId) : Encoder Term :=
  match (v.fields[id.sig.index]?).bind fun fs => fs[id.index]? with
  | some d => return .ref d
  | none => Encoder.unsupported (.unknownField id)

def builtinRelation (v : Vocabulary) : Builtin → Encoder Term
  | .univ => return .ref v.univRelation
  | .none => return .ref v.noneRelation
  | .iden => return .ref v.idenRelation
  | .int => Encoder.unsupported .intSignature

end Vocabulary

/-- Sets of atoms. -/
def unaryRelation : TermSort := .set (.tuple [.atom])

/-- The sorts whose elements stand for tuples of integers, and the functions
that give those tuples. -/
def unaryIntSort : TermSort := .named "UnaryIntTup"

def binaryIntSort : TermSort := .named "BinaryIntTup"

def ternaryIntSort : TermSort := .named "TernaryIntTup"

def unaryIntValue (t : Term) : Term := .call "value_of_unaryIntTup" [t]

def binaryIntValue (t : Term) : Term := .call "value_of_binaryIntTup" [t]

def ternaryIntValue (t : Term) : Term := .call "value_of_ternaryIntTup" [t]

end TupleLogic.Encoding
