import TupleLogic.SExpr.Token

/-! S-expressions: atoms and parenthesised lists of s-expressions. A list of
tokens stands for a list of s-expressions exactly when its parentheses
balance. -/

namespace TupleLogic

inductive SExpr where
  | atom (a : Atom)
  | list (items : List SExpr)
  deriving Repr, Inhabited

def Atom.text : Atom → String
  | .symbol s => s
  | .keyword k => ":" ++ k
  | .numeral n => toString n
  | .string s => "\"" ++ s ++ "\""
  | .comment c => "; " ++ c
  | .cardinality s n => "; cardinality of " ++ s ++ " is " ++ toString n

namespace SExpr

@[match_pattern] abbrev symbol (name : String) : SExpr := .atom (.symbol name)

@[match_pattern] abbrev numeral (value : Nat) : SExpr := .atom (.numeral value)

mutual
/-- An s-expression on one line, with symbols unquoted. -/
def text : SExpr → String
  | .atom a => a.text
  | .list items => "(" ++ textAll items ++ ")"

/-- The texts of a list, with blanks between them. -/
def textAll : List SExpr → String
  | [] => ""
  | e :: es => e.text ++ textAfter es

/-- The texts of a list, each after a blank. -/
def textAfter : List SExpr → String
  | [] => ""
  | e :: es => " " ++ e.text ++ textAfter es
end

/-- Reads tokens next to the lists that are still open, innermost first, each
with its items so far in reverse; `items` belongs to the innermost one. -/
def build : List (List SExpr) → List SExpr → List Token → Except (Stop Token) (List SExpr)
  | [], items, [] => .ok items.reverse
  | _ :: _, _, [] => .error .endOfInput
  | opened, items, .opening :: ts => build (items :: opened) [] ts
  | outer :: opened, items, .closing :: ts => build opened (.list items.reverse :: outer) ts
  | [], _, .closing :: _ => .error (.found .closing)
  | opened, items, .atom a :: ts => build opened (.atom a :: items) ts

def ofTokens (ts : List Token) : Except (Stop Token) (List SExpr) := build [] [] ts

/-- Drops the comments inside parentheses, where they name nothing. Reports
of cardinalities stay. -/
def dropNestedComments : Nat → List Token → List Token
  | _, [] => []
  | depth, .opening :: ts => .opening :: dropNestedComments (depth + 1) ts
  | depth, .closing :: ts => .closing :: dropNestedComments (depth - 1) ts
  | depth, .atom (.comment c) :: ts =>
    if depth = 0 then .atom (.comment c) :: dropNestedComments depth ts
    else dropNestedComments depth ts
  | depth, t :: ts => t :: dropNestedComments depth ts

end SExpr

end TupleLogic
