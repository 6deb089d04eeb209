import TupleLogic.Error
import TupleLogic.Relational.Model

/-! Why a model has no encoding. Expressions appear as they read in the
model. -/

namespace TupleLogic.Encoding

open Relational

inductive Unsupported where
  | intSignature
  | unknownSignature (id : SigId)
  | unknownField (id : FieldId)
  | fieldWithoutColumns (field sig : String)
  | fieldMultiplicity (multiplicity : Multiplicity) (columns : Nat) (sig field : String)
  | intColumnInProduct
  | notBinary (expr : String) (sort : TermSort)
  | notRelational (expr : String) (sort : TermSort)
  | columnOfSort (expr : String) (sort : TermSort)
  | joinOfUnary (expr : String)
  | comparisonOf (expr : String) (sort : TermSort)
  | boundOf (expr : String) (sort : TermSort)
  | countOutsideComparison (expr : String)
  | countWithoutLiteral (expr : String)
  | countDisequality (expr : String)
  | countBelowTop (expr : String)
  | countOfTerm (expr : String)
  | countTooLarge (count : Int)
  deriving Repr

/-- The largest number of elements that one comparison of a cardinality may enumerate. -/
def maxEnumerated : Nat := 65536

namespace Unsupported

def quotedText (s : String) : String := "`" ++ s ++ "`"

def construct : Unsupported → String
  | .intSignature => "the built-in signature Int"
  | .unknownSignature id => "reference to undeclared signature #" ++ toString id.index
  | .unknownField id =>
    "reference to undeclared field #" ++ toString id.index ++ " of signature #" ++
      toString id.sig.index
  | .fieldWithoutColumns f s => "field " ++ quotedText f ++ " of " ++ quotedText s ++
      " without columns"
  | .fieldMultiplicity m n s f =>
    quotedText m.text ++ " multiplicity on the " ++ toString n ++ "-column field " ++
      quotedText (s ++ "." ++ f)
  | .intColumnInProduct => "an Int column in a product of signatures"
  | .notBinary e s => quotedText e ++ " over a relation of sort " ++ s.text
  | .notRelational e s => quotedText e ++ " of non-relational sort " ++ s.text
  | .columnOfSort e s => quotedText e ++ " with a column of sort " ++ s.text
  | .joinOfUnary e => quotedText e ++ " joins two unary relations"
  | .comparisonOf e s => "integer comparison over " ++ quotedText e ++ " of sort " ++ s.text
  | .boundOf e s => "quantifier bound " ++ quotedText e ++ " of sort " ++ s.text
  | .countOutsideComparison e =>
    quotedText e ++ " outside of a comparison with an integer literal"
  | .countWithoutLiteral e =>
    quotedText e ++ " compares a cardinality with something other than an integer literal"
  | .countDisequality e => quotedText e ++ " (cardinality disequality)"
  | .countBelowTop e => quotedText e ++ " below the top level of a fact"
  | .countOfTerm e => quotedText e ++ " counts a non-relational term"
  | .countTooLarge n =>
    "a cardinality bound of " ++ toString n ++ " (at most " ++ toString maxEnumerated ++
      " tuples are enumerated)"

end Unsupported

inductive EncodeError where
  | unsupported (cause : Unsupported)
  /-- A variable that no enclosing quantifier binds. -/
  | unbound (name : String)
  | term (cause : TermError)
  deriving Repr

def EncodeError.message : EncodeError → String
  | .unsupported cause =>
    "The construct `" ++ cause.construct ++ "` cannot be lowered to the set/tuple dialect. " ++
      "No approximation is emitted for it."
  | .unbound name =>
    "The variable `" ++ name ++ "` is referenced but not bound by any enclosing quantifier or " ++
      "declaration."
  | .term cause => cause.message

end TupleLogic.Encoding
