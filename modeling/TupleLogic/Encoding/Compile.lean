import TupleLogic.Encoding.Structure
import TupleLogic.Settings

/-! Models as scripts: the built-in sorts and relations, the relations of the
model, what its signatures and fields say, and its facts. -/

namespace TupleLogic.Encoding

open Relational Encoder

/-- The function that gives the tuple of an element of an integer tuple sort. -/
def declareValue (name : String) (input : TermSort) (width : Nat) : Encoder Unit := do
  let output ← liftTerm (TermSort.mkTuple (List.replicate width .int))
  discard <| edit (.declareFunction name [input] output)

def declareSort (name : String) : Encoder Unit := edit (.declareSort name 0)

/-- A variable under a given name. -/
def namedVariable (name : String) (sort : TermSort) : Encoder DeclId := do
  let (id, script) := (← get).script.addVariable name sort
  modify fun p => { p with script := script }
  return id

/-- Declares what every encoding refers to, and returns the relations of all
atoms, of none, and of each atom with itself. -/
def declareBuiltins : Encoder (DeclId × DeclId × DeclId) := do
  declareSort "Atom"
  declareSort "UnaryIntTup"
  declareSort "BinaryIntTup"
  declareSort "TernaryIntTup"
  declareValue "value_of_unaryIntTup" unaryIntSort 1
  declareValue "value_of_binaryIntTup" binaryIntSort 2
  declareValue "value_of_ternaryIntTup" ternaryIntSort 3
  let univ ← declareRelation "atomUniv" unaryRelation
  let empty ← declareRelation "atomNone" unaryRelation
  let iden ← declareRelation "atomIden" (← liftTerm (TermSort.mkRelation [.atom, .atom]))
  assertTerm none (.equals (.ref empty) (.emptySet unaryRelation))
  assertTerm none (.equals (.ref univ) (.fullSet unaryRelation))
  let x ← namedVariable "x" .atom
  let y ← namedVariable "y" .atom
  let pair ← liftTerm (Term.mkTuple [.ref x, .ref y])
  let diagonal ← liftTerm (Term.forAll [x, y]
    (.equals (.member pair (.ref iden)) (.equals (.ref x) (.ref y))))
  assertTerm none diagonal
  return (univ, empty, iden)

/-- Declares the relations of a model. -/
def declareVocabulary (m : Model) : Encoder Vocabulary := do
  let (univ, empty, iden) ← declareBuiltins
  let signatures ← m.signatures.mapM declareSignature
  let fields ← m.signatures.mapM fun s => s.fields.mapM (declareField s)
  return ⟨m, univ, empty, iden, signatures, fields⟩

/-- Encodes a model into an empty script. -/
def encodeModel (fieldTyping : Bool) (m : Model) : Encoder Unit := do
  let v ← declareVocabulary m
  assertSignatures v
  if fieldTyping then forFields m (assertFieldTyping v)
  forFields m (assertFieldMultiplicity v)
  m.facts.forM fun fact => assertFact v fact.name fact.body

end TupleLogic.Encoding

namespace TupleLogic.Relational.Model

open TupleLogic.Encoding

/-- The script of a model, and the names that are left. Names that a failed
encoding has drawn are gone. -/
def encode (m : Model) (settings : Settings) (names : NameSupply) :
    Except EncodeError Script × NameSupply :=
  let start : NameSupply := if settings.resetNames then NameSupply.reset else names
  let (result, progress) := (encodeModel settings.fieldTyping m).run.run ⟨Script.empty, start⟩
  (result.map fun _ => progress.script, progress.names)

/-- The text of a model's script. -/
def compile (m : Model) (settings : Settings) (names : NameSupply) :
    Except EncodeError String × NameSupply :=
  let (result, names) := m.encode settings names
  (result.bind fun s => (s.print settings.width).mapError .term, names)

end TupleLogic.Relational.Model
