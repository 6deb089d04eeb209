/-! Operators of terms, each with the one spelling that printing writes and
reading recognises. Spellings are distinct within a kind, so `ofSpelling?`
undoes `spelling`. -/

namespace TupleLogic

inductive UnaryOp where
  | not
  | singleton
  | transpose
  | closure
  | complement
  deriving DecidableEq, Repr, Inhabited

inductive BinaryOp where
  | implies
  | eq
  | member
  | subset
  | union
  | intersection
  | difference
  | join
  | product
  | lt
  | le
  | gt
  | ge
  /-- Selects a column of a tuple; the left operand is the column's index. -/
  | select
  deriving DecidableEq, Repr, Inhabited

inductive NaryOp where
  | and
  | or
  | distinct
  | tuple
  /-- Adds elements to a set, which is the last operand. -/
  | insert
  deriving DecidableEq, Repr, Inhabited

inductive Quantifier where
  | all
  | exist
  deriving DecidableEq, Repr, Inhabited

namespace UnaryOp

def values : List UnaryOp := [.not, .singleton, .transpose, .closure, .complement]

def spelling : UnaryOp → String
  | .not => "not"
  | .singleton => "singleton"
  | .transpose => "transpose"
  | .closure => "tclosure"
  | .complement => "complement"

def ofSpelling? (s : String) : Option UnaryOp := values.find? (·.spelling = s)

theorem ofSpelling?_spelling (op : UnaryOp) : ofSpelling? op.spelling = some op := by
  cases op <;> rfl

end UnaryOp

namespace BinaryOp

def values : List BinaryOp :=
  [.implies, .eq, .member, .subset, .union, .intersection, .difference, .join, .product,
    .lt, .le, .gt, .ge, .select]

def spelling : BinaryOp → String
  | .implies => "=>"
  | .eq => "="
  | .member => "member"
  | .subset => "subset"
  | .union => "union"
  | .intersection => "intersection"
  | .difference => "setminus"
  | .join => "join"
  | .product => "product"
  | .lt => "<"
  | .le => "<="
  | .gt => ">"
  | .ge => ">="
  | .select => "tupSel"

def ofSpelling? (s : String) : Option BinaryOp := values.find? (·.spelling = s)

theorem ofSpelling?_spelling (op : BinaryOp) : ofSpelling? op.spelling = some op := by
  cases op <;> rfl

end BinaryOp

namespace NaryOp

def values : List NaryOp := [.and, .or, .distinct, .tuple, .insert]

def spelling : NaryOp → String
  | .and => "and"
  | .or => "or"
  | .distinct => "distinct"
  | .tuple => "mkTuple"
  | .insert => "insert"

def ofSpelling? (s : String) : Option NaryOp := values.find? (·.spelling = s)

theorem ofSpelling?_spelling (op : NaryOp) : ofSpelling? op.spelling = some op := by
  cases op <;> rfl

end NaryOp

namespace Quantifier

def values : List Quantifier := [.all, .exist]

def spelling : Quantifier → String
  | .all => "forall"
  | .exist => "exists"

def ofSpelling? (s : String) : Option Quantifier := values.find? (·.spelling = s)

theorem ofSpelling?_spelling (q : Quantifier) : ofSpelling? q.spelling = some q := by
  cases q <;> rfl

end Quantifier

end TupleLogic
