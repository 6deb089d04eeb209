import TupleLogic.Relational.Expr

/-! Relational models: a hierarchy of signatures with fields, and facts about
them. -/

namespace TupleLogic.Relational

/-- What a signature declaration may be marked with. -/
inductive Mark where
  /-- Every atom belongs to a signature that extends this one. -/
  | abstract
  | one
  | lone
  | some
  /-- A subset signature that is all of its parent. -/
  | exact
  | metaSig
  | privateSig
  | enumSig
  deriving DecidableEq, Repr

def Mark.values : List Mark :=
  [.abstract, .one, .lone, .some, .exact, .metaSig, .privateSig, .enumSig]

/-- The bit of a mark in the compact form of a set of marks. -/
def Mark.bit : Mark → Nat
  | .abstract => 1
  | .one => 2
  | .lone => 4
  | .some => 8
  | .exact => 16
  | .metaSig => 32
  | .privateSig => 64
  | .enumSig => 128

inductive Parent where
  | top
  /-- Disjoint from the parent's other extensions. -/
  | extending (parent : SigId)
  | subset (parent : SigId)
  deriving DecidableEq, Repr

/-- What a column of a field ranges over. -/
inductive Column where
  | sig (id : SigId)
  | univ
  | int
  deriving DecidableEq, Repr

inductive Multiplicity where
  | set
  | one
  | lone
  | some
  deriving DecidableEq, Repr

def Multiplicity.text : Multiplicity → String
  | .set => "set"
  | .one => "one"
  | .lone => "lone"
  | .some => "some"

structure Field where
  label : String
  /-- The columns after that of the field's own signature. -/
  columns : List Column
  multiplicity : Multiplicity
  deriving DecidableEq, Repr

structure Signature where
  label : String
  parent : Parent
  marks : List Mark
  fields : List Field
  deriving DecidableEq, Repr

def Signature.has (s : Signature) (m : Mark) : Bool := s.marks.contains m

structure Fact where
  name : String
  body : Expr
  deriving Repr

structure Model where
  signatures : List Signature := []
  facts : List Fact := []
  deriving Repr

namespace Model

def signature? (m : Model) (id : SigId) : Option Signature := m.signatures[id.index]?

def field? (m : Model) (id : FieldId) : Option Field :=
  (m.signature? id.sig).bind fun s => s.fields[id.index]?

def addSignature (m : Model) (label : String) (parent : Parent) (marks : List Mark) :
    SigId × Model :=
  (⟨m.signatures.length⟩, { m with signatures := m.signatures ++ [⟨label, parent, marks, []⟩] })

/-- Adds a field to a signature, if there is such a signature. -/
def addField (m : Model) (sig : SigId) (field : Field) : Option (FieldId × Model) :=
  (m.signature? sig).map fun s =>
    (⟨sig, s.fields.length⟩,
      { m with signatures := m.signatures.set sig.index { s with fields := s.fields ++ [field] } })

def addFact (m : Model) (name : String) (body : Expr) : Model :=
  { m with facts := m.facts ++ [⟨name, body⟩] }

/-- Each signature with its position. -/
def numbered (m : Model) : List (SigId × Signature) :=
  m.signatures.zipIdx.map fun (s, i) => (⟨i⟩, s)

/-- The signatures that extend `parent`. -/
def children (m : Model) (parent : SigId) : List SigId :=
  (m.numbered.filter fun (_, s) => s.parent = .extending parent).map Prod.fst

mutual
/-- An expression in relational syntax, with the labels of the model. -/
def render (m : Model) : Expr → String
  | .sig id => match m.signature? id with
    | some s => s.label
    | none => "<sig " ++ toString id.index ++ ">"
  | .field id => match m.field? id with
    | some f => f.label
    | none => "<field " ++ toString id.sig.index ++ "." ++ toString id.index ++ ">"
  | .builtin b => b.text
  | .var name => name
  | .int n => toString n
  | .unary op e => op.text ++ (if op.isWord then " (" else "(") ++ m.render e ++ ")"
  | .binary op a b =>
    "(" ++ m.render a ++ (if op = .join then op.text else " " ++ op.text ++ " ") ++
      m.render b ++ ")"
  | .list op es => "(" ++ String.intercalate (" " ++ op.text ++ " ") (m.renderAll es) ++ ")"
  | .quantified q bs body =>
    "(" ++ q.text ++ " " ++ String.intercalate ", " (m.renderBindings bs) ++ " | " ++
      m.render body ++ ")"

def renderAll (m : Model) : List Expr → List String
  | [] => []
  | e :: es => m.render e :: m.renderAll es

def renderBindings (m : Model) : List (Binding Expr) → List String
  | [] => []
  | b :: bs =>
    (String.intercalate ", " b.names ++ ": " ++ m.render b.bound) :: m.renderBindings bs
end

end Model

end TupleLogic.Relational
