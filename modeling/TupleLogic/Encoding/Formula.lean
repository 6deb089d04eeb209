import TupleLogic.Encoding.Counting

/-! Relational expressions as terms. Relations become relations and formulas
become formulas; nothing is checked beyond what the encoding needs to know.
The recursion is on the expression, and each construct is a function of the
encodings of its parts, so that the order in which names are drawn is the
order in which the parts are run. -/

namespace TupleLogic.Encoding

open Relational Encoder

/-- The variables that an expression may mention, innermost first. -/
abbrev Scope := List (String × DeclId)

/-- Terms that are encoded together with what they owe. -/
def both (lhs rhs : Encoder Encoded) (build : Term → Term → Term) : Encoder Encoded := do
  let a ← lhs
  let b ← rhs
  return ⟨build a.term b.term, a.witnesses ++ b.witnesses⟩

/-- An operation on two relations. -/
def setOperation (lhs rhs : Encoder Encoded) (build : Term → Term → Term) : Encoder Encoded :=
  both (relation lhs) (relation rhs) build

/-- A relation of two columns, as `expr` needs it. -/
def binaryRelation (expr : String) (encoding : Encoder Encoded) : Encoder Encoded := do
  let e ← relation encoding
  let sort ← sortOf e.term
  if sort.arity = 2 then return e else unsupported (.notBinary expr sort)

/-- A join leaves a column over. -/
def joinRelations (expr : String) (lhs rhs : Encoder Encoded) : Encoder Encoded := do
  let a ← relation lhs
  let b ← relation rhs
  if (← sortOf a.term).arity = 1 then
    if (← sortOf b.term).arity = 1 then unsupported (.joinOfUnary expr)
  return ⟨.join a.term b.term, a.witnesses ++ b.witnesses⟩

/-- A claim about the elements of a relation that one tuple bears witness to;
`guard` says it of the tuple and the relation. A tuple of two or three
integers is also the value of an element of its own sort. -/
def witnessed (expr : String) (guard : Term → Term → Term) (encoding : Encoder Encoded) :
    Encoder Encoded := do
  let set ← relation encoding
  let sample ← specimen expr (← sortOf set.term)
  let claim := guard sample.tuple set.term
  let witness ←
    if sample.allInt && sample.vars.length == 2 then do
      let pair ← freshVariable binaryIntSort
      pure ⟨sample.vars ++ [pair], .and claim (.equals (binaryIntValue (.ref pair)) sample.tuple)⟩
    else if sample.allInt && sample.vars.length == 3 then do
      let triple ← freshVariable ternaryIntSort
      pure ⟨sample.vars ++ [triple],
        .and claim (.equals (ternaryIntValue (.ref triple)) sample.tuple)⟩
    else pure ⟨sample.vars, claim⟩
  return ⟨.bool true, set.witnesses ++ [witness]⟩

/-- A relation without elements. If it owes witnesses it is compared with the
empty set, which leaves them to whoever binds them. -/
def emptiness (expr : String) (encoding : Encoder Encoded) : Encoder Encoded := do
  let set ← relation encoding
  let sort ← sortOf set.term
  if set.witnesses.isEmpty then do
    let sample ← specimen expr sort
    return ⟨← liftTerm (Term.forAll sample.vars (.not (.member sample.tuple set.term))), []⟩
  else return set.map fun t => .equals t (.emptySet sort)

def unaryExpr (v : Vocabulary) (op : Relational.UnaryOp) (arg : Expr)
    (encoding : Encoder Encoded) : Encoder Encoded :=
  let expr := v.model.render (.unary op arg)
  let inner := v.model.render arg
  match op with
  | .not => do return ⟨.not (← formula encoding), []⟩
  | .closure => do return (← binaryRelation expr encoding).map .closure
  | .reflexiveClosure => do
    return (← binaryRelation expr encoding).map fun t => .union (.closure t) (.ref v.idenRelation)
  | .transpose => do return (← binaryRelation expr encoding).map .transpose
  | .toInt | .toSigned => encoding
  | .card => unsupported (.countOutsideComparison expr)
  | .no => emptiness inner encoding
  | .some => witnessed inner Term.member encoding
  | .one => witnessed inner (fun tuple set => .equals (.singleton tuple) set) encoding
  | .lone => witnessed inner (fun tuple set => .subset set (.singleton tuple)) encoding

/-- The value of a number: a literal as it stands, and the one integer of a
relation by way of a witness. -/
def intValue (v : Vocabulary) (e : Expr) (encoding : Encoder Encoded) : Encoder Encoded :=
  match e.literal? with
  | some n => return ⟨.int n, []⟩
  | none => do
    let set ← relation encoding
    let sort ← sortOf set.term
    if sort = .set (.tuple [.int]) then
      let u ← freshVariable unaryIntSort
      let value := unaryIntValue (.ref u)
      return ⟨.select 0 value, set.witnesses ++ [⟨[u], .equals (.singleton value) set.term⟩]⟩
    else unsupported (.comparisonOf (v.model.render e) sort)

/-- Conjunctions bind the witnesses of their operands. -/
def conjunction (operands : List (Encoder Encoded)) : Encoder Encoded := do
  let es ← operands.mapM id
  let e : Encoded := ⟨conjNontrivial (es.map Encoded.term), es.flatMap Encoded.witnesses⟩
  return ⟨← liftTerm e.close, []⟩

def disjunction (operands : List (Encoder Encoded)) : Encoder Encoded := do
  return ⟨.disj (← operands.mapM formula), []⟩

/-- An operator on formulas that are closed first. -/
def connective (lhs rhs : Encoder Encoded) (build : Term → Term → Term) : Encoder Encoded := do
  let a ← formula lhs
  let b ← formula rhs
  return ⟨build a b, []⟩

/-- A binary expression that counts nothing. The operands of a conjunction
keep the position of the whole, so their encodings come apart. -/
def binaryExpr (v : Vocabulary) (op : Relational.BinaryOp) (a b : Expr) (lhs rhs : Encoder Encoded)
    (conjuncts : List (Encoder Encoded)) : Encoder Encoded :=
  match op with
  | .join => joinRelations (v.model.render (.binary op a b)) lhs rhs
  | .union => setOperation lhs rhs .union
  | .intersection => setOperation lhs rhs .intersection
  | .difference => setOperation lhs rhs .difference
  | .product => setOperation lhs rhs .product
  | .equals => setOperation lhs rhs .equals
  | .inside => setOperation lhs rhs .subset
  | .notEquals => do return ⟨.not (← formula (setOperation lhs rhs .equals)), []⟩
  | .notInside => do return ⟨.not (← formula (setOperation lhs rhs .subset)), []⟩
  | .and => conjunction conjuncts
  | .or => disjunction [lhs, rhs]
  | .implies => connective lhs rhs .implies
  | .iff => connective lhs rhs .equals
  | .lt => both (intValue v a lhs) (intValue v b rhs) .lt
  | .le => both (intValue v a lhs) (intValue v b rhs) .le
  | .gt => both (intValue v a lhs) (intValue v b rhs) .gt
  | .ge => both (intValue v a lhs) (intValue v b rhs) .ge

/-- The variables that a quantifier binds, what is known of them, and the
scope of its body. -/
structure Bound where
  vars : List DeclId
  guards : List Term
  scope : Scope
  deriving Repr

/-- One variable for each name, each in the set `bound`. -/
def bindNames (bound : Term) : List String → Scope → Encoder Bound
  | [], scope => return ⟨[], [], scope⟩
  | name :: names, scope => do
    let x ← freshVariable .atom
    let guard := Term.member (← liftTerm (Term.mkTuple [.ref x])) bound
    let rest ← bindNames bound names ((name, x) :: scope)
    return ⟨x :: rest.vars, guard :: rest.guards, rest.scope⟩

/-- The set that variables range over: atoms, with no witness owed. -/
def boundSet (expr : String) (encoding : Encoder Encoded) : Encoder Term := do
  let set ← relation encoding
  let sort ← sortOf set.term
  if set.witnesses.isEmpty && sort = unaryRelation then return set.term
  else unsupported (.boundOf expr sort)

/-- A quantifier, given what binds its variables and what encodes its body in
a scope. Uniqueness needs the variables and the body a second time. -/
def quantify (q : Relational.Quantifier) (bind : Encoder Bound)
    (body : Scope → Encoder Encoded) : Encoder Encoded := do
  let xs ← bind
  match q with
  | .all =>
    let holds ← formula (body xs.scope)
    return ⟨← liftTerm (Term.forAll xs.vars (.implies (.conj xs.guards) holds)), []⟩
  | .no =>
    let holds ← formula (body xs.scope)
    return ⟨← liftTerm (Term.forAll xs.vars (.implies (.conj xs.guards) (.not holds))), []⟩
  | .some =>
    let holds ← body xs.scope
    return ⟨holds.term, ⟨xs.vars, .conj xs.guards⟩ :: holds.witnesses⟩
  | .one =>
    let holds ← body xs.scope
    let ys ← bind
    let again ← formula (body ys.scope)
    let same := Term.conj (List.zipWith (fun y x => .equals (.ref y) (.ref x)) ys.vars xs.vars)
    let unique ← liftTerm (Term.forAll ys.vars
      (.implies (conjNontrivial (ys.guards ++ [again])) same))
    return ⟨conjNontrivial [holds.term, unique], ⟨xs.vars, .conj xs.guards⟩ :: holds.witnesses⟩
  | .lone =>
    let first ← formula (body xs.scope)
    let ys ← bind
    let second ← formula (body ys.scope)
    let same := Term.conj (List.zipWith (fun x y => .equals (.ref x) (.ref y)) xs.vars ys.vars)
    return ⟨← liftTerm (Term.forAll (xs.vars ++ ys.vars)
      (.implies (conjNontrivial (xs.guards ++ [first] ++ ys.guards ++ [second])) same)), []⟩

mutual
/-- Encodes an expression in a scope. -/
def encode (v : Vocabulary) : Expr → Scope → Position → Encoder Encoded
  | .sig id, _, _ => do return ⟨← v.sigRelation id, []⟩
  | .field id, _, _ => do return ⟨← v.fieldRelation id, []⟩
  | .builtin b, _, _ => do return ⟨← v.builtinRelation b, []⟩
  | .var name, scope, _ =>
    match scope.lookup name with
    | some id => return ⟨.ref id, []⟩
    | none => throw (.unbound name)
  | .int n, _, _ => do return ⟨.singleton (← liftTerm (Term.mkTuple [.int n])), []⟩
  | .unary op e, scope, _ => unaryExpr v op e (encode v e scope .nested)
  | .binary op a b, scope, position =>
    let plain := binaryExpr v op a b (encode v a scope .nested) (encode v b scope .nested)
      [encode v a scope position, encode v b scope position]
    match op.comparison? with
    | none => plain
    | some c =>
      let lhs := encodeCounted v a scope
      let rhs := encodeCounted v b scope
      if lhs.isSome || rhs.isSome then
        cardinality (v.model.render (.binary op a b)) position c lhs rhs a.literal? b.literal?
      else plain
  | .list .and es, scope, position => conjunction (encodeAll v es scope position)
  | .list .or es, scope, _ => disjunction (encodeAll v es scope .nested)
  | .quantified q bs body, scope, _ =>
    quantify q (encodeBindings v bs scope) fun inner => encode v body inner .nested

/-- The relation that an expression counts, if it is a cardinality below casts. -/
def encodeCounted (v : Vocabulary) : Expr → Scope → Option (Encoder Encoded)
  | .unary op e, scope =>
    match op with
    | .toInt | .toSigned => encodeCounted v e scope
    | .card => some (relation (encode v e scope .nested))
    | _ => none
  | _, _ => none

def encodeAll (v : Vocabulary) : List Expr → Scope → Position → List (Encoder Encoded)
  | [], _, _ => []
  | e :: es, scope, position => encode v e scope position :: encodeAll v es scope position

/-- Binds groups of variables from left to right; later bounds see earlier
variables. -/
def encodeBindings (v : Vocabulary) : List (Binding Expr) → Scope → Encoder Bound
  | [], scope => return ⟨[], [], scope⟩
  | b :: bs, scope => do
    let set ← boundSet (v.model.render b.bound) (encode v b.bound scope .nested)
    let first ← bindNames set b.names scope
    let rest ← encodeBindings v bs first.scope
    return ⟨first.vars ++ rest.vars, first.guards ++ rest.guards, rest.scope⟩
end

end TupleLogic.Encoding
