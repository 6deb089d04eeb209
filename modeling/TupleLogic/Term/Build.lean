import TupleLogic.Error

/-! Sorts and terms by their own rules: a tuple has a column, a set has no
sets for elements, a quantifier binds a variable, `distinct` compares two
terms at least. Constructors that can break no rule are plain functions. -/

namespace TupleLogic

namespace TermSort

def mkTuple (columns : List TermSort) : Except TermError TermSort :=
  if columns.isEmpty then .error (.malformed .tupleSortWithoutColumns) else .ok (.tuple columns)

def mkSet (element : TermSort) : Except TermError TermSort :=
  if element.isSet then .error (.malformed (.setOfSets element)) else .ok (.set element)

/-- The sort of relations with these columns. -/
def mkRelation (columns : List TermSort) : Except TermError TermSort := do
  mkSet (← mkTuple columns)

end TermSort

namespace Term

def not (t : Term) : Term := .unary .not t

def singleton (t : Term) : Term := .unary .singleton t

def transpose (t : Term) : Term := .unary .transpose t

def closure (t : Term) : Term := .unary .closure t

def complement (t : Term) : Term := .unary .complement t

def implies (a b : Term) : Term := .binary .implies a b

def equals (a b : Term) : Term := .binary .eq a b

def member (element set : Term) : Term := .binary .member element set

def subset (a b : Term) : Term := .binary .subset a b

def union (a b : Term) : Term := .binary .union a b

def intersection (a b : Term) : Term := .binary .intersection a b

def difference (a b : Term) : Term := .binary .difference a b

def join (a b : Term) : Term := .binary .join a b

def product (a b : Term) : Term := .binary .product a b

def lt (a b : Term) : Term := .binary .lt a b

def le (a b : Term) : Term := .binary .le a b

def gt (a b : Term) : Term := .binary .gt a b

def ge (a b : Term) : Term := .binary .ge a b

/-- Column `column` of a tuple. -/
def select (column : Nat) (tuple : Term) : Term := .binary .select (.int column) tuple

def and (a b : Term) : Term := .nary .and [a, b]

def or (a b : Term) : Term := .nary .or [a, b]

/-- A conjunction of no terms is true, and one of a single term is that term. -/
def conj : List Term → Term
  | [] => .bool true
  | [t] => t
  | ts => .nary .and ts

/-- A disjunction of no terms is false, and one of a single term is that term. -/
def disj : List Term → Term
  | [] => .bool false
  | [t] => t
  | ts => .nary .or ts

/-- Unions nest to the left. -/
def unionAll : List Term → Except TermError Term
  | [] => .error (.malformed .unionOfNothing)
  | t :: ts => .ok (ts.foldl union t)

def mkTuple (elements : List Term) : Except TermError Term :=
  if elements.isEmpty then .error (.malformed .tupleOfNothing) else .ok (.nary .tuple elements)

def distinct (terms : List Term) : Except TermError Term :=
  if terms.length < 2 then .error (.malformed (.tooFewDistinct terms.length))
  else .ok (.nary .distinct terms)

def insert (elements : List Term) (set : Term) : Except TermError Term :=
  if elements.isEmpty then .error (.malformed .nothingToInsert)
  else .ok (.nary .insert (elements ++ [set]))

def quantify (q : Quantifier) (vars : List DeclId) (body : Term) : Except TermError Term :=
  if vars.isEmpty then .error (.malformed (.quantifierWithoutVariables q))
  else .ok (.quantified q vars body)

def forAll (vars : List DeclId) (body : Term) : Except TermError Term := quantify .all vars body

def thereExists (vars : List DeclId) (body : Term) : Except TermError Term :=
  quantify .exist vars body

end Term

end TupleLogic
