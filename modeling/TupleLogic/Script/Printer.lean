import TupleLogic.SortInference
import TupleLogic.Symbol
import TupleLogic.Layout.Colour

/-! Scripts as text: a fixed prelude, then sorts, functions, constants,
definitions and assertions, one command after the other. A named assertion
stands below a comment with its name. Each command is a block, so the text
depends on the script and the page width alone. -/

namespace TupleLogic.Script

open Layout

/-- The commands that come first in every script. -/
def prelude : List String :=
  ["(set-logic ALL)", "(set-option :produce-models true)", "(set-option :finite-model-find true)",
    "(set-option :sets-ext true)"]

def defaultWidth : Nat := 100

def nameBlock (name : String) : Except TermError Block := do
  return .text .name (← Symbol.spell name)

mutual
/-- A sort in a block of the given depth, if it takes parentheses. -/
def sortBlock (depth : Nat) : TermSort → Except TermError Block
  | .named n => do return .text .sort (← Symbol.spell n)
  | .set e => do return .form depth (.text .sort "Set") [← sortBlock (depth + 1) e]
  | .tuple cs => do
    if cs.isEmpty then throw (.malformed .emptyTupleWritten)
    return .form depth (.text .sort "Tuple") (← sortBlocks depth cs)
  | .int => .ok (.text .sort "Int")
  | .bool => .ok (.text .sort "Bool")
  | .real => .error (.unsupportedSort .real)
  | .string => .error (.unsupportedSort .string)

/-- Sorts inside a block of the given depth. -/
def sortBlocks (depth : Nat) : List TermSort → Except TermError (List Block)
  | [] => .ok []
  | s :: ss => do
    let b ← sortBlock (depth + 1) s
    return b :: (← sortBlocks depth ss)
end

/-- Sorts in parentheses of the given depth. -/
def sortsBlock (depth : Nat) (sorts : List TermSort) : Except TermError Block := do
  return .group depth (← sortBlocks depth sorts)

variable (s : Script)

/-- A variable with its sort, inside a list of the given depth. -/
def bindingBlock (depth : Nat) (id : DeclId) : Except TermError Block := do
  match ← s.decl id with
  | .variable name sort => do
    let head ← nameBlock name
    return .form (depth + 1) head [← sortBlock (depth + 2) sort]
  | d => throw (.malformed (.bindingNotVariable d.name))

/-- Variables with their sorts, as quantifiers and definitions list them. -/
def bindingsBlock (depth : Nat) (ids : List DeclId) : Except TermError Block := do
  return .group depth (← ids.mapM (s.bindingBlock depth))

def intBlock (depth : Nat) (n : Int) : Block :=
  if n < 0 then .form depth (.text .operator "-") [.text .literal (toString n.natAbs)]
  else .text .literal (toString n.natAbs)

/-- A set literal, annotated with its sort. -/
def setLiteralBlock (depth : Nat) (literal : String) (sort : TermSort) :
    Except TermError Block := do
  if !sort.isSet then throw (.malformed (.literalOfNonSet sort))
  return .form depth (.text .keyword "as") [.text .literal literal, ← sortBlock (depth + 1) sort]

/-- The head of a selection, which holds the column's index. -/
def selectorBlock (depth : Nat) : Term → Except TermError Block
  | .int n =>
    if n < 0 then .error (.malformed .columnNotNatural)
    else .ok (.form depth (.text .operator "_")
      [.text .operator BinaryOp.select.spelling, .text .literal (toString n.natAbs)])
  | _ => .error (.malformed .columnNotNatural)

mutual
/-- A term in a block of the given depth, if it takes parentheses. -/
def termBlock (depth : Nat) : Term → Except TermError Block
  | .ref id => do nameBlock (← s.decl id).name
  | .int n => .ok (intBlock depth n)
  | .bool b => .ok (.text .literal (if b then "true" else "false"))
  | .emptySet sort => setLiteralBlock depth "emptyset" sort
  | .fullSet sort => setLiteralBlock depth "univset" sort
  | .unary op a => do return .form depth (.text .operator op.spelling) [← termBlock (depth + 1) a]
  | .binary op a b =>
    if op = .select then do
      let selector ← selectorBlock (depth + 1) a
      return .form depth selector [← termBlock (depth + 1) b]
    else do
      let l ← termBlock (depth + 1) a
      let r ← termBlock (depth + 1) b
      return .form depth (.text .operator op.spelling) [l, r]
  | .nary op args => do
    if args.isEmpty then throw (.malformed (.operatorWithoutOperands op))
    return .form depth (.text .operator op.spelling) (← termBlocks depth args)
  | .quantified q vars body => do
    if vars.isEmpty then throw (.malformed (.quantifierBindsNothing q))
    let bindings ← s.bindingsBlock (depth + 1) vars
    return .form depth (.text .keyword q.spelling) [bindings, ← termBlock (depth + 1) body]
  | .ite c a b => do
    let condition ← termBlock (depth + 1) c
    let yes ← termBlock (depth + 1) a
    let no ← termBlock (depth + 1) b
    return .form depth (.text .keyword "ite") [condition, yes, no]
  | .call f args => do
    let head ← nameBlock f
    if args.isEmpty then return head
    return .form depth head (← termBlocks depth args)

/-- Terms inside a block of the given depth. -/
def termBlocks (depth : Nat) : List Term → Except TermError (List Block)
  | [] => .ok []
  | t :: ts => do
    let b ← termBlock (depth + 1) t
    return b :: (← termBlocks depth ts)
end

/-- A command, which no other parentheses are around. -/
def commandBlock (command : String) (args : List Block) : Block :=
  .form 0 (.text .keyword command) args

def sortDeclarationBlock (d : SortDeclaration) : Except TermError Block := do
  return commandBlock "declare-sort"
    [.text .sort (← Symbol.spell d.name), .text .literal (toString d.arity)]

def declarationBlock : Declaration → Except TermError Block
  | .function name inputs output => do
    let head ← nameBlock name
    let inputs ← sortsBlock 1 inputs
    return commandBlock "declare-fun" [head, inputs, ← sortBlock 1 output]
  | .constant name sort => do
    let head ← nameBlock name
    return commandBlock "declare-const" [head, ← sortBlock 1 sort]
  | .definition name parameters output body => do
    let head ← nameBlock name
    let bindings ← s.bindingsBlock 1 parameters
    let sort ← sortBlock 1 output
    return commandBlock "define-fun" [head, bindings, sort, ← s.termBlock 1 body]
  | .variable name _ => .error (.malformed (.variableAtTopLevel name))

/-- The comment that names an assertion. A line end would cut it short. -/
def commentBlock (name : String) : Except TermError Block :=
  if name.toList.any fun c => c = '\n' || c = '\r' then
    .error (.malformed (.assertionNameLines name))
  else .ok (.text .comment ("; " ++ name))

def assertionBlocks (a : Assertion) : Except TermError (List Block) := do
  let command := commandBlock "assert" [← s.termBlock 1 a.formula]
  match a.name with
  | none => return [command]
  | some name => return [← commentBlock name, command]

/-- Every line or command of the script's text, in order. -/
def blocks : Except TermError (List Block) := do
  let sorts ← s.sorts.mapM sortDeclarationBlock
  let declarations ← (s.functions ++ s.constants ++ s.definitions).mapM fun id => do
    s.declarationBlock (← s.decl id)
  let assertions ← s.assertions.mapM s.assertionBlocks
  return prelude.map (.text .keyword ·) ++ sorts ++ declarations ++ assertions.flatten

/-- Blocks from the top of the page, each ended by a line end. -/
def layoutBlocks (width : Nat) (bs : List Block) : List Piece :=
  bs.flatMap fun b => b.layout width 0 0 0 ++ [.newline 0]

def render (paint : Piece → String) (pieces : List Piece) : String :=
  String.join (pieces.map paint)

def print (width : Nat) : Except TermError String := do
  return render Piece.plain (layoutBlocks width (← s.blocks))

def printColoured (width : Nat) : Except TermError String := do
  return render Piece.coloured (layoutBlocks width (← s.blocks))

/-- One term, without a line end. -/
def printTerm (width : Nat) (t : Term) : Except TermError String := do
  return render Piece.plain ((← s.termBlock 0 t).layout width 0 0 0)

end TupleLogic.Script
