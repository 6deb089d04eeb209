import TupleLogic.TermSort
import TupleLogic.Operator

/-! Terms of the set and tuple dialect. A term owns its parts and refers to
declarations only by their position in a script, so it means something only
next to a script. The constructors check nothing. -/

namespace TupleLogic

/-- The position of a declaration in a script, in order of allocation. -/
structure DeclId where
  index : Nat
  deriving DecidableEq, Repr, Inhabited

def DeclId.text (id : DeclId) : String := "#" ++ toString id.index

inductive Term where
  /-- A function, constant, definition or bound variable. -/
  | ref (id : DeclId)
  | int (value : Int)
  | bool (value : Bool)
  /-- The empty set of a set sort. -/
  | emptySet (sort : TermSort)
  /-- The full set of a set sort. -/
  | fullSet (sort : TermSort)
  | unary (op : UnaryOp) (arg : Term)
  | binary (op : BinaryOp) (lhs rhs : Term)
  | nary (op : NaryOp) (args : List Term)
  | quantified (quantifier : Quantifier) (vars : List DeclId) (body : Term)
  | ite (condition yes no : Term)
  /-- A declared or defined function applied by name. -/
  | call (function : String) (args : List Term)
  deriving Repr, Inhabited

namespace Term

def isTrue : Term → Bool
  | .bool true => true
  | _ => false

def isFalse : Term → Bool
  | .bool false => true
  | _ => false

/-- The declaration that a bare reference names. -/
def decl? : Term → Option DeclId
  | .ref id => some id
  | _ => none

mutual
/-- Every declaration mentioned, from left to right; the variables of a
quantifier come before its body. -/
def decls : Term → List DeclId
  | .ref id => [id]
  | .int _ | .bool _ | .emptySet _ | .fullSet _ => []
  | .unary _ a => a.decls
  | .binary _ a b => a.decls ++ b.decls
  | .nary _ args | .call _ args => declsList args
  | .quantified _ vars body => vars ++ body.decls
  | .ite c a b => c.decls ++ a.decls ++ b.decls

def declsList : List Term → List DeclId
  | [] => []
  | t :: ts => t.decls ++ declsList ts
end

end Term

end TupleLogic
