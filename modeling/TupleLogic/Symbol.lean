import TupleLogic.Error
import TupleLogic.Text.Decimal

/-! Names as symbols of the solver's text format. A name that reads as a plain
symbol stands for itself; any other stands between bars, which is possible
unless it holds a bar or a backslash. -/

namespace TupleLogic.Symbol

def isSymbolChar (c : Char) : Bool :=
  decide ('0' ≤ c) && decide (c ≤ '9') || decide ('a' ≤ c) && decide (c ≤ 'z') ||
    decide ('A' ≤ c) && decide (c ≤ 'Z') ||
    ['~', '!', '@', '$', '%', '^', '&', '*', '_', '-', '+', '=', '<', '>', '.', '?', '/'].contains c

/-- Words that mean something else when they stand unquoted. -/
def reserved : List String :=
  ["_", "!", "as", "let", "exists", "forall", "match", "par", "BINARY", "DECIMAL", "HEXADECIMAL",
    "NUMERAL", "STRING"]

/-- Not empty, not led by a digit, and of symbol characters throughout. -/
def isSimple : List Char → Bool
  | [] => false
  | c :: cs => !Text.isDigit c && (c :: cs).all isSymbolChar

/-- Whether a character may stand between bars. -/
def isQuotable (c : Char) : Bool := c != '|' && c != '\\'

def spell (name : String) : Except TermError String :=
  if isSimple name.toList && !reserved.contains name then .ok name
  else if name.toList.all isQuotable then .ok ("|" ++ name ++ "|")
  else .error (.malformed (.unwritableSymbol name))

end TupleLogic.Symbol
