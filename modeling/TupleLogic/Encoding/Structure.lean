import TupleLogic.Encoding.Formula

/-! What the signatures and fields of a model say by themselves: the relations
that stand for them, the hierarchy, abstractness, disjointness and
multiplicities of signatures, and the column types and multiplicities of
fields. -/

namespace TupleLogic.Encoding

open Relational Encoder

/-- The relation name of a label; path separators and primes have no place in
a plain symbol. -/
def relationName (label : String) : String :=
  String.ofList (label.toList.map fun c => if c = '/' || c = '\'' then '_' else c)

def columnSort : Column → TermSort
  | .sig _ | .univ => .atom
  | .int => .int

def declareRelation (name : String) (sort : TermSort) : Encoder DeclId :=
  edit (.declareFunction name [] sort)

def declareSignature (s : Signature) : Encoder DeclId :=
  declareRelation (relationName s.label) unaryRelation

/-- The columns of a field, that of its signature first. -/
def fieldColumns (f : Field) : List TermSort := .atom :: f.columns.map columnSort

def declareField (s : Signature) (f : Field) : Encoder DeclId := do
  if f.columns.isEmpty then unsupported (.fieldWithoutColumns f.label s.label)
  let sort ← liftTerm (TermSort.mkRelation (fieldColumns f))
  declareRelation (relationName s.label ++ "_" ++ relationName f.label) sort

variable (v : Vocabulary)

/-- Encodes a closed formula and asserts it under a name. -/
def assertFact (name : String) (body : Expr) : Encoder Unit := do
  let term ← formula (encode v body [] .top)
  assertTerm (some name) term

def sigLabel (id : SigId) : Encoder String :=
  match v.model.signature? id with
  | some s => return s.label
  | none => unsupported (.unknownSignature id)

/-- A signature lies in its parent, or is all of it. -/
def assertParent (id : SigId) (s : Signature) : Encoder Unit := do
  let relation ← v.sigRelation id
  match s.parent with
  | .top => assertTerm (some (s.label ++ " in univ")) (.subset relation (.ref v.univRelation))
  | .extending parent => within relation parent
  | .subset parent =>
    if s.has .exact then do
      let label ← sigLabel v parent
      let whole ← v.sigRelation parent
      assertTerm (some (s.label ++ " = " ++ label)) (.equals relation whole)
    else within relation parent
where
  within (relation : Term) (parent : SigId) : Encoder Unit := do
    let label ← sigLabel v parent
    let whole ← v.sigRelation parent
    assertTerm (some (s.label ++ " in " ++ label)) (.subset relation whole)

/-- An abstract signature with extensions holds nothing else. -/
def assertAbstract (id : SigId) (s : Signature) : Encoder Unit := do
  if s.has .abstract then
    let relation ← v.sigRelation id
    let children ← (v.model.children id).mapM v.sigRelation
    if !children.isEmpty then
      assertTerm (some ("abstract " ++ s.label))
        (.equals relation (← liftTerm (Term.unionAll children)))

/-- The marks on the number of atoms of a signature. -/
def assertMark (id : SigId) (s : Signature) (mark : Mark) (op : Relational.UnaryOp) :
    Encoder Unit := do
  if s.has mark then assertFact v (op.text ++ " " ++ s.label) (.unary op (.sig id))

def assertSignature (id : SigId) (s : Signature) : Encoder Unit := do
  assertParent v id s
  assertAbstract v id s
  assertMark v id s .one .one
  assertMark v id s .lone .lone
  assertMark v id s .some .some

/-- Two signatures have no atom in common. -/
def assertDisjointPair (a b : SigId) : Encoder Unit := do
  let first ← sigLabel v a
  let second ← sigLabel v b
  let overlap := Term.intersection (← v.sigRelation a) (← v.sigRelation b)
  assertTerm (some ("disj " ++ first ++ ", " ++ second))
    (.equals overlap (.emptySet unaryRelation))

/-- Any two of the signatures have no atom in common. -/
def assertDisjoint : List SigId → Encoder Unit
  | [] => return ()
  | a :: rest => do
    rest.forM (assertDisjointPair v a)
    assertDisjoint rest

/-- The signatures without a parent. -/
def topLevel (m : Model) : List SigId :=
  (m.numbered.filter fun (_, s) => s.parent = .top).map Prod.fst

def assertSignatures : Encoder Unit := do
  v.model.numbered.forM fun (id, s) => assertSignature v id s
  assertDisjoint v (topLevel v.model)
  v.model.numbered.forM fun (id, _) => assertDisjoint v (v.model.children id)

/-- The relation that a column ranges over. -/
def columnRelation : Column → Encoder Term
  | .sig id => v.sigRelation id
  | .univ => return .ref v.univRelation
  | .int => unsupported .intColumnInProduct

/-- Without integers, a field lies in the product of its columns. -/
def productTyping (owner relation : Term) (columns : List Column) : Encoder Term := do
  let bound ← columns.foldlM (fun acc c => do return .product acc (← columnRelation v c)) owner
  return .subset relation bound

/-- A variable for a column, and its guard unless the column holds integers. -/
def typedColumn (c : Column) : Encoder (DeclId × Option Term) := do
  let x ← freshVariable (columnSort c)
  if c = .int then return (x, none)
  else return (x, some (.member (← liftTerm (Term.mkTuple [.ref x])) (← columnRelation v c)))

/-- With integers, which no relation holds, each tuple of a field has its
other columns guarded one by one. -/
def guardedTyping (owner relation : Term) (columns : List Column) : Encoder Term := do
  let x ← freshVariable .atom
  let guard := Term.member (← liftTerm (Term.mkTuple [.ref x])) owner
  let typed ← columns.mapM (typedColumn v)
  let vars := x :: typed.map Prod.fst
  let tuple ← liftTerm (Term.mkTuple (vars.map .ref))
  liftTerm (Term.forAll vars
    (.implies (.member tuple relation) (.conj (guard :: typed.filterMap Prod.snd))))

def assertFieldTyping (id : SigId) (s : Signature) (index : Nat) (f : Field) : Encoder Unit := do
  let owner ← v.sigRelation id
  let relation ← v.fieldRelation ⟨id, index⟩
  let typing ←
    if f.columns.contains .int then guardedTyping v owner relation f.columns
    else productTyping v owner relation f.columns
  assertTerm (some (s.label ++ " <: " ++ f.label)) typing

/-- The relational operator of a multiplicity, if it constrains anything. -/
def multiplicityOp? : Multiplicity → Option Relational.UnaryOp
  | .set => none
  | .one => some .one
  | .lone => some .lone
  | .some => some .some

/-- Every atom of the signature has as many values as the multiplicity says. -/
def assertFieldMultiplicity (id : SigId) (s : Signature) (index : Nat) (f : Field) :
    Encoder Unit := do
  match multiplicityOp? f.multiplicity with
  | none => return ()
  | some op =>
    if f.columns.length ≠ 1 then
      unsupported (.fieldMultiplicity f.multiplicity (f.columns.length + 1) s.label f.label)
    assertFact v (f.multiplicity.text ++ " " ++ s.label ++ "." ++ f.label)
      (.quantified .all [⟨["this"], .sig id⟩]
        (.unary op (.binary .join (.var "this") (.field ⟨id, index⟩))))

/-- Runs an assertion for each field of each signature. -/
def forFields (m : Model) (assertion : SigId → Signature → Nat → Field → Encoder Unit) :
    Encoder Unit :=
  m.numbered.forM fun (id, s) => s.fields.zipIdx.forM fun (f, index) => assertion id s index f

end TupleLogic.Encoding
