import TupleLogic.SExpr

/-! Why a text is no script. Tokens and parentheses come first; what remains
is an s-expression in a place where it has no meaning, or a command that the
script refuses. -/

namespace TupleLogic

inductive ReadError where
  /-- No token starts here. -/
  | lexing (stop : Stop Char)
  /-- The parentheses do not balance. -/
  | unbalanced (stop : Stop Token)
  | expectedCommand (found : SExpr)
  | unsupportedCommand (command : SExpr)
  | arityOutOfRange (sort : String)
  | unknownSort (name : String)
  | expectedSort (found : SExpr)
  | expectedBinding (found : SExpr)
  | unknownSymbol (name : String)
  | expectedTerm (found : SExpr)
  | unsupportedTerm (found : SExpr)
  | numeralOutOfRange (value : Int)
  | columnOutOfRange (column : Nat)
  | literalOfNonSet (literal : String) (sort : TermSort)
  | unsupportedAscription (name : String)
  | oneOperand (function : String) (count : Nat)
  | twoOperands (function : String) (count : Nat)
  | unknownFunction (name : String)
  /-- The script does not take what was read. -/
  | refused (cause : TermError)
  /-- A reported cardinality cannot be recorded. -/
  | unrecorded (cause : TermError)
  deriving Repr

namespace ReadError

def quotedText (s : String) : String := "`" ++ s ++ "`"

def complaint : ReadError → String
  | .lexing _ => "a character starts no token"
  | .unbalanced _ => "parentheses do not balance"
  | .expectedCommand e => "expected a command, found " ++ quotedText e.text
  | .unsupportedCommand e => "unsupported command " ++ quotedText e.text
  | .arityOutOfRange s => "arity of sort " ++ quotedText s ++ " is out of range"
  | .unknownSort n => "unknown sort " ++ quotedText n
  | .expectedSort e => "expected a sort, found " ++ quotedText e.text
  | .expectedBinding e => "expected a binding `(name Sort)`, found " ++ quotedText e.text
  | .unknownSymbol n => "unknown symbol " ++ quotedText n
  | .expectedTerm e => "expected a term, found " ++ quotedText e.text
  | .unsupportedTerm e => "unsupported term " ++ quotedText e.text
  | .numeralOutOfRange n => "numeral " ++ toString n ++ " is out of range"
  | .columnOutOfRange i => "column " ++ toString i ++ " is out of range"
  | .literalOfNonSet l s =>
    quotedText l ++ " annotated with non-set sort " ++ quotedText s.text
  | .unsupportedAscription n => "unsupported annotation of " ++ quotedText n
  | .oneOperand f n => quotedText f ++ " expects one operand, got " ++ toString n
  | .twoOperands f n => quotedText f ++ " expects two operands, got " ++ toString n
  | .unknownFunction n => "unknown function " ++ quotedText n
  | .refused cause | .unrecorded cause => cause.message

/-- What is shown. A cardinality that cannot be recorded is no fault of the text. -/
def message : ReadError → String
  | .unrecorded cause => cause.message
  | e => "Failed to parse solver output:\n" ++ e.complaint

end ReadError

end TupleLogic
