/-! Relational expressions over the signatures and fields of a model, formulas
included. The tree is that of an elaborated specification: signatures and
fields are given by position, and a position need not exist. -/

namespace TupleLogic.Relational

/-- The position of a signature in its model. -/
structure SigId where
  index : Nat
  deriving DecidableEq, Repr, Inhabited

/-- The position of a field in its signature. -/
structure FieldId where
  sig : SigId
  index : Nat
  deriving DecidableEq, Repr, Inhabited

inductive Builtin where
  | univ
  | none
  | iden
  | int
  deriving DecidableEq, Repr

def Builtin.text : Builtin → String
  | .univ => "univ"
  | .none => "none"
  | .iden => "iden"
  | .int => "Int"

inductive UnaryOp where
  | no
  | some
  | one
  | lone
  | not
  | closure
  | reflexiveClosure
  | transpose
  | toInt
  | toSigned
  | card
  deriving DecidableEq, Repr

def UnaryOp.text : UnaryOp → String
  | .no => "no"
  | .some => "some"
  | .one => "one"
  | .lone => "lone"
  | .not => "!"
  | .closure => "^"
  | .reflexiveClosure => "*"
  | .transpose => "~"
  | .toInt => "int"
  | .toSigned => "Int"
  | .card => "#"

/-- Operators that are words stand apart from their operand. -/
def UnaryOp.isWord : UnaryOp → Bool
  | .no | .some | .one | .lone | .toInt | .toSigned => true
  | .not | .closure | .reflexiveClosure | .transpose | .card => false

/-- Comparisons that numbers take part in. -/
inductive Comparison where
  | eq
  | ne
  | lt
  | le
  | gt
  | ge
  deriving DecidableEq, Repr

/-- The comparison with its sides exchanged. -/
def Comparison.swapped : Comparison → Comparison
  | .lt => .gt
  | .le => .ge
  | .gt => .lt
  | .ge => .le
  | c => c

inductive BinaryOp where
  | join
  | union
  | intersection
  | difference
  | product
  | equals
  | notEquals
  | inside
  | notInside
  | and
  | or
  | implies
  | iff
  | lt
  | le
  | gt
  | ge
  deriving DecidableEq, Repr

def BinaryOp.text : BinaryOp → String
  | .join => "."
  | .union => "+"
  | .intersection => "&"
  | .difference => "-"
  | .product => "->"
  | .equals => "="
  | .notEquals => "!="
  | .inside => "in"
  | .notInside => "!in"
  | .and => "&&"
  | .or => "||"
  | .implies => "=>"
  | .iff => "<=>"
  | .lt => "<"
  | .le => "<="
  | .gt => ">"
  | .ge => ">="

def BinaryOp.comparison? : BinaryOp → Option Comparison
  | .equals => some .eq
  | .notEquals => some .ne
  | .lt => some .lt
  | .le => some .le
  | .gt => some .gt
  | .ge => some .ge
  | _ => none

/-- Connectives of lists of formulas. -/
inductive ListOp where
  | and
  | or
  deriving DecidableEq, Repr

def ListOp.text : ListOp → String
  | .and => "&&"
  | .or => "||"

inductive Quantifier where
  | all
  | some
  | no
  | one
  | lone
  deriving DecidableEq, Repr

def Quantifier.text : Quantifier → String
  | .all => "all"
  | .some => "some"
  | .no => "no"
  | .one => "one"
  | .lone => "lone"

/-- Variables that range over one bound. -/
structure Binding (α : Type) where
  names : List String
  bound : α
  deriving Repr

inductive Expr where
  | sig (id : SigId)
  | field (id : FieldId)
  | builtin (b : Builtin)
  | var (name : String)
  | int (value : Int)
  | unary (op : UnaryOp) (arg : Expr)
  | binary (op : BinaryOp) (lhs rhs : Expr)
  | list (op : ListOp) (operands : List Expr)
  | quantified (quantifier : Quantifier) (bindings : List (Binding Expr)) (body : Expr)
  deriving Repr, Inhabited

namespace Expr

/-- The expression below its casts, which do not change what it means. -/
def uncast : Expr → Expr
  | .unary .toInt e | .unary .toSigned e => e.uncast
  | e => e

/-- The number that a literal, cast or not, stands for. -/
def literal? (e : Expr) : Option Int :=
  match e.uncast with
  | .int n => some n
  | _ => none

end Expr

end TupleLogic.Relational
