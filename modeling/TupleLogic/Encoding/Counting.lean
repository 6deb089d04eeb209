import TupleLogic.Encoding.Witness
import TupleLogic.Text.Decimal

/-! Comparisons of a cardinality with a number. The dialect cannot count, so
the elements are enumerated: fresh constants, said to be distinct where
counting needs it, and a fresh set that holds exactly them. Constants are
declared at the top level of the script and their assertions hold throughout,
which is sound only where the comparison itself holds in every case: at the
top of a fact, below conjunctions alone. -/

namespace TupleLogic.Encoding

open Relational Encoder

/-- Whether a formula stands at the top of a fact, possibly below conjunctions. -/
inductive Position where
  | top
  | nested
  deriving DecidableEq, Repr

def freshElements (sort : TermSort) : Nat → Encoder (List Term)
  | 0 => return []
  | n + 1 => do
    let element ← freshElement sort
    return .ref element :: (← freshElements sort n)

/-- A set of `count` fresh elements, pairwise distinct if asked for. -/
def enumerate (count : Nat) (element set : TermSort) (pairwise : Bool) : Encoder Term := do
  if count > maxEnumerated then unsupported (.countTooLarge count)
  let elements ← freshElements element count
  if pairwise && elements.length > 1 then
    assertTerm none (← liftTerm (Term.distinct elements))
  let aux ← freshSet set
  let union ← liftTerm (Term.unionAll (elements.map Term.singleton))
  assertTerm none (.equals (.ref aux) union)
  return .ref aux

/-- What a comparison says of a cardinality. -/
inductive CountBound where
  | exactly (count : Int)
  | atMost (count : Int)
  | atLeast (count : Int)
  /-- More than a number of 64 bits can say. -/
  | beyond
  deriving DecidableEq, Repr

/-- Disequality bounds nothing. -/
def CountBound.ofComparison? (c : Comparison) (k : Int) : Option CountBound :=
  match c with
  | .eq => some (.exactly k)
  | .ne => none
  | .le => some (.atMost k)
  | .lt => some (.atMost (k - 1))
  | .ge => some (.atLeast k)
  | .gt => some (if Text.fitsSigned64 (k + 1) then .atLeast (k + 1) else .beyond)

/-- A bound on the number of elements of `set`, which has the sort `sort`. -/
def encodeBound (set : Term) (sort element : TermSort) : CountBound → Encoder Term
  | .exactly k =>
    if k < 0 then return .bool false
    else if k = 0 then return .equals set (.emptySet sort)
    else return .equals set (← enumerate k.toNat element sort true)
  | .atMost k =>
    if k < 0 then return .bool false
    else if k = 0 then return .equals set (.emptySet sort)
    else return .subset set (← enumerate k.toNat element sort false)
  | .atLeast k =>
    if k ≤ 0 then return .bool true
    else return .subset (← enumerate k.toNat element sort true) set
  | .beyond => return .bool false

/-- The cardinality of `set` compared with the literal `k`; `expr` is the whole comparison. -/
def countComparison (expr : String) (position : Position) (c : Comparison) (k : Int)
    (set : Encoder Encoded) : Encoder Encoded :=
  match CountBound.ofComparison? c k with
  | none => unsupported (.countDisequality expr)
  | some bound =>
    if position = .top then do
      let set ← set
      let sort ← sortOf set.term
      match sort.element? with
      | none => unsupported (.countOfTerm expr)
      | some element => return { set with term := ← encodeBound set.term sort element bound }
    else unsupported (.countBelowTop expr)

/-- A comparison where at least one side is counted. The other side must be a
literal. -/
def cardinality (expr : String) (position : Position) (c : Comparison)
    (lhs rhs : Option (Encoder Encoded)) (lhsLiteral rhsLiteral : Option Int) : Encoder Encoded :=
  match lhs, rhsLiteral with
  | some set, some k => countComparison expr position c k set
  | _, _ =>
    match rhs, lhsLiteral with
    | some set, some k => countComparison expr position c.swapped k set
    | _, _ => unsupported (.countWithoutLiteral expr)

end TupleLogic.Encoding
