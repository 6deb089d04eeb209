import TupleLogic.Term
import TupleLogic.Text.Quoted

/-! What can go wrong with a term or a script, as causes. The wording of a
cause is in `Malformed.complaint` and `TermError.message` alone; every other
module speaks of causes. -/

namespace TupleLogic

/-- The commands that give a name to a declaration. -/
inductive NamingCommand where
  | declareFunction
  | declareConstant
  | defineFunction
  deriving DecidableEq, Repr

def NamingCommand.label : NamingCommand → String
  | .declareFunction => "declare_function"
  | .declareConstant => "declare_constant"
  | .defineFunction => "define_function"

/-- The operators whose operands must be relations. -/
inductive RelationOp where
  | transpose
  | closure
  | join
  | product
  deriving DecidableEq, Repr

def RelationOp.spelling : RelationOp → String
  | .transpose => UnaryOp.transpose.spelling
  | .closure => UnaryOp.closure.spelling
  | .join => BinaryOp.join.spelling
  | .product => BinaryOp.product.spelling

/-- The reason why an argument is refused. -/
inductive Malformed where
  | tupleSortWithoutColumns
  | setOfSets (element : TermSort)
  | unionOfNothing
  | tupleOfNothing
  | tooFewDistinct (count : Nat)
  | nothingToInsert
  | quantifierWithoutVariables (quantifier : Quantifier)
  | nameTaken (command : NamingCommand) (name : String)
  | sortTaken (name : String)
  | sortUnknown (name : String)
  | parameterNotBound (parameter function : String)
  | literalOfNonSet (sort : TermSort)
  | notRelation (op : RelationOp) (sort : TermSort)
  | closureOf (sort : TermSort)
  | differentSorts (op : BinaryOp) (lhs rhs : TermSort)
  | joinLeavesNothing
  | joinMismatch (lhs rhs : TermSort)
  | columnNotConstant
  | selectFrom (sort : TermSort)
  | columnOutOfRange (column : Int) (arity : Nat)
  | insertWithoutSet
  | functionUnknown (function : String)
  | unwritableSymbol (name : String)
  | emptyTupleWritten
  | bindingNotVariable (name : String)
  | columnNotNatural
  | operatorWithoutOperands (op : NaryOp)
  | quantifierBindsNothing (quantifier : Quantifier)
  | variableAtTopLevel (name : String)
  | assertionNameLines (name : String)
  deriving Repr

/-- What was being built, and what is wrong with it. -/
def Malformed.complaint : Malformed → String × String
  | .tupleSortWithoutColumns => ("Sort::tuple", "a tuple sort needs at least one element sort")
  | .setOfSets e =>
    ("Sort::set", "the element sort of a set cannot itself be a set, got `" ++ e.text ++ "`")
  | .unionOfNothing => ("union_all", "at least one set is required")
  | .tupleOfNothing => ("mk_tuple", "a tuple needs at least one element")
  | .tooFewDistinct n => ("distinct", "expected at least two terms, got " ++ toString n)
  | .nothingToInsert => ("insert", "at least one element must be inserted")
  | .quantifierWithoutVariables q =>
    ("quantified", "`" ++ q.spelling ++ "` requires at least one bound variable")
  | .nameTaken c n => (c.label, "the name `" ++ n ++ "` is already declared in this program")
  | .sortTaken n => ("declare_sort", "the sort `" ++ n ++ "` is already declared in this program")
  | .sortUnknown n => ("set_sort_cardinality", "the sort `" ++ n ++ "` is not declared")
  | .parameterNotBound p f =>
    (NamingCommand.defineFunction.label,
      "parameter `" ++ p ++ "` of `" ++ f ++ "` is not a bound variable")
  | .literalOfNonSet s => ("set literal", "`" ++ s.text ++ "` is not a set sort")
  | .notRelation op s => (op.spelling, "expected a relation, got `" ++ s.text ++ "`")
  | .closureOf s =>
    (UnaryOp.closure.spelling, "expected a homogeneous binary relation, got `" ++ s.text ++ "`")
  | .differentSorts op l r =>
    (op.spelling, "operands have different sorts `" ++ l.text ++ "` and `" ++ r.text ++ "`")
  | .joinLeavesNothing => (BinaryOp.join.spelling, "joining two unary relations yields no column")
  | .joinMismatch l r =>
    (BinaryOp.join.spelling,
      "cannot join `" ++ l.text ++ "` with `" ++ r.text ++ "`: inner columns differ")
  | .columnNotConstant =>
    (BinaryOp.select.spelling, "the column index must be an integer constant")
  | .selectFrom s => (BinaryOp.select.spelling, "expected a tuple, got `" ++ s.text ++ "`")
  | .columnOutOfRange c n =>
    (BinaryOp.select.spelling,
      "column " ++ toString c ++ " is out of range for a tuple of arity " ++ toString n)
  | .insertWithoutSet => (NaryOp.insert.spelling, "missing set operand")
  | .functionUnknown f => ("call", "`" ++ f ++ "` is not a declared function")
  | .unwritableSymbol n => ("symbol", "`" ++ n ++ "` cannot be written as an SMT-LIB symbol")
  | .emptyTupleWritten => ("Tuple", "empty tuple sort")
  | .bindingNotVariable n => ("binding", "`" ++ n ++ "` is not a bound variable")
  | .columnNotNatural =>
    (BinaryOp.select.spelling, "the column index must be a non-negative integer constant")
  | .operatorWithoutOperands op =>
    ("multi-arity operator", "`" ++ op.spelling ++ "` applied to no operand")
  | .quantifierBindsNothing q => ("quantifier", "`" ++ q.spelling ++ "` binds no variable")
  | .variableAtTopLevel n =>
    ("declaration", "bound variable `" ++ n ++ "` cannot be declared at top level")
  | .assertionNameLines n => ("assertion name", Text.quoted n ++ " spans several lines")

inductive TermError where
  /-- A sort that the dialect has no spelling for. -/
  | unsupportedSort (sort : TermSort)
  | malformed (cause : Malformed)
  /-- A position beyond the declarations of the script. -/
  | unknownDeclaration (id : DeclId)
  /-- A join whose one side has no column to match. -/
  | missingColumn
  deriving Repr

def TermError.message : TermError → String
  | .unsupportedSort s =>
    "The construct `" ++ s.text ++ " sort` is not supported by the set/tuple dialect. " ++
      "No approximation is emitted for it."
  | .malformed cause =>
    "Malformed argument passed to `" ++ cause.complaint.1 ++ "`: " ++ cause.complaint.2 ++ "."
  | .unknownDeclaration id => "There is no declaration " ++ id.text ++ " in this script."
  | .missingColumn => "A relation without columns cannot be joined."

end TupleLogic
