import TupleLogic.Script
import TupleLogic.Script.ReadError

/-! Scripts and solver models from text. Text becomes tokens, tokens become
s-expressions, and each top-level list is a command. A symbol in a term means
the innermost variable of that name, else the declaration of that name;
values that a solver makes up, such as `@uc_Atom_0`, become constants where
they first occur. -/

namespace TupleLogic

/-- What a text may hold: the report of a solver declares and defines; a
script also asserts and sets options. -/
inductive Dialect where
  | model
  | script
  deriving DecidableEq, Repr

namespace Script

abbrev Reader := StateT Script (Except ReadError)

namespace Reader

/-- The variables in scope, innermost first. -/
abbrev Scope := List (String × DeclId)

def check {α : Type} (r : Except TermError α) : Except ReadError α :=
  r.mapError .refused

/-- Runs a command that adds a declaration. -/
def declare (command : Script → Except TermError (DeclId × Script)) : Reader DeclId :=
  fun s => check (command s)

mutual
def readSort (s : Script) : SExpr → Except ReadError TermSort
  | .symbol name =>
    if name = "Int" then .ok .int
    else if name = "Bool" then .ok .bool
    else if name = "Real" then .ok .real
    else if name = "String" then .ok .string
    else match s.sortDeclaration? name with
      | some _ => .ok (.named name)
      | none => .error (.unknownSort name)
  | .list (.symbol head :: args) =>
    if head = "Set" then
      match args with
      | [element] => do check (TermSort.mkSet (← readSort s element))
      | _ => .error (.expectedSort (.list (.symbol head :: args)))
    else if head = "Tuple" then do check (TermSort.mkTuple (← readSorts s args))
    else .error (.expectedSort (.list (.symbol head :: args)))
  | found => .error (.expectedSort found)

def readSorts (s : Script) : List SExpr → Except ReadError (List TermSort)
  | [] => .ok []
  | e :: es => do
    let sort ← readSort s e
    return sort :: (← readSorts s es)
end

/-- A variable with its sort, which enters the script. -/
def readBinding : SExpr → Reader (String × DeclId)
  | .list [.symbol name, sort] => fun s => do
    let (id, s) := s.addVariable name (← readSort s sort)
    return ((name, id), s)
  | found => throw (.expectedBinding found)

/-- A constant for a value of the solver's own, made where there is none. -/
def solverValue (name : String) (sort : TermSort) : Reader Term := do
  match (← get).lookup name with
  | some id => return .ref id
  | none => return .ref (← declare (·.declareConstant name sort))

/-- The sort in the name `@uc_S_n` of a solver's value. -/
def solverSort? (name : String) : Option String :=
  if "@uc_".toList.isPrefixOf name.toList then
    let rest := (name.toList.drop 4).reverse
    match rest.dropWhile (· != '_') with
    | [] => none
    | _ :: sort => some (String.ofList sort.reverse)
  else none

def readSymbol (scope : Scope) (name : String) : Reader Term := do
  if name = "true" then return .bool true
  if name = "false" then return .bool false
  if let some id := scope.lookup name then return .ref id
  let s ← get
  if let some id := s.lookup name then return .ref id
  match solverSort? name with
  | some sort =>
    match s.sortDeclaration? sort with
    | some _ => solverValue name (.named sort)
    | none => throw (.unknownSymbol name)
  | none => throw (.unknownSymbol name)

def readInt (n : Int) : Reader Term :=
  if Text.fitsSigned64 n then return .int n else throw (.numeralOutOfRange n)

/-- A name with a sort: a set literal, or a value of the solver's own. -/
def readAnnotated (name : String) (sort : SExpr) : Reader Term := do
  let sort ← readSort (← get) sort
  if name = "emptyset" then
    if sort.isSet then return .emptySet sort else throw (.literalOfNonSet name sort)
  else if name = "univset" then
    if sort.isSet then return .fullSet sort else throw (.literalOfNonSet name sort)
  else if name.toList.head? = some '@' then solverValue name sort
  else throw (.unsupportedAscription name)

/-- The column in the head `(_ tupSel i)` of a selection. -/
def selectorColumn? : SExpr → Option Nat
  | .list [.symbol underscore, .symbol select, .numeral column] =>
    if underscore = "_" ∧ select = BinaryOp.select.spelling then some column else none
  | _ => none

/-- An operator or declared function, applied to what `terms` reads; only the
number of operands is known before they are read. -/
def application (head : String) (count : Nat) (terms : Reader (List Term)) : Reader Term := do
  match UnaryOp.ofSpelling? head with
  | some op =>
    if count ≠ 1 then throw (.oneOperand head count)
    match ← terms with
    | [t] => return .unary op t
    | ts => throw (.oneOperand head ts.length)
  | none =>
  match BinaryOp.ofSpelling? head with
  | some .select | none =>
    match NaryOp.ofSpelling? head with
    | some op =>
      let ts ← terms
      match op with
      | .tuple => check (Term.mkTuple ts)
      | .distinct => check (Term.distinct ts)
      | .insert =>
        match ts.getLast? with
        | some set => check (Term.insert ts.dropLast set)
        | none => throw (.refused (.malformed .insertWithoutSet))
      | .and | .or => return .nary op ts
    | none =>
      match (← get).lookup head with
      | some _ => return .call head (← terms)
      | none => throw (.unknownFunction head)
  | some op =>
    if count ≠ 2 then throw (.twoOperands head count)
    match ← terms with
    | [a, b] => return .binary op a b
    | ts => throw (.twoOperands head ts.length)

mutual
def readTerm (scope : Scope) : SExpr → Reader Term
  | .symbol name => readSymbol scope name
  | .numeral n => readInt n
  | .atom a => throw (.expectedTerm (.atom a))
  | .list items => readForm scope items

/-- The items of a list that stands for a term. -/
def readForm (scope : Scope) : List SExpr → Reader Term
  | .symbol head :: args =>
    let applied : Reader Term :=
      if args.isEmpty then throw (.unsupportedTerm (.list (.symbol head :: args)))
      else application head args.length (readTerms scope args)
    match args with
    | [.numeral n] => if head = "-" then readInt (-n) else applied
    | [.symbol name, sort] => if head = "as" then readAnnotated name sort else applied
    | [.list bindings, body] =>
      match Quantifier.ofSpelling? head with
      | some q => do
        let bound ← bindings.mapM readBinding
        let body ← readTerm (bound.reverse ++ scope) body
        check (Term.quantify q (bound.map Prod.snd) body)
      | none => applied
    | [condition, yes, no] =>
      if head = "ite" then do
        let c ← readTerm scope condition
        let a ← readTerm scope yes
        let b ← readTerm scope no
        return .ite c a b
      else applied
    | _ => applied
  | [selector, tuple] =>
    match selectorColumn? selector with
    | some column =>
      if Text.fitsUnsigned32 column then do return .select column (← readTerm scope tuple)
      else throw (.columnOutOfRange column)
    | none => throw (.unsupportedTerm (.list [selector, tuple]))
  | items => throw (.unsupportedTerm (.list items))

def readTerms (scope : Scope) : List SExpr → Reader (List Term)
  | [] => return []
  | e :: es => do
    let t ← readTerm scope e
    return t :: (← readTerms scope es)
end

/-! Each command takes its arguments, and stands itself behind them for the
case that they have the wrong shape. -/

def declareSort (command : SExpr) : List SExpr → Reader Unit
  | [.symbol sort, .numeral arity] =>
    if Text.fitsUnsigned32 arity then do set (← check ((← get).declareSort sort arity))
    else throw (.arityOutOfRange sort)
  | _ => throw (.unsupportedCommand command)

def declareFunction (command : SExpr) : List SExpr → Reader Unit
  | [.symbol function, .list inputs, output] => do
    let s ← get
    let inputs ← readSorts s inputs
    let output ← readSort s output
    discard <| declare (·.declareFunction function inputs output)
  | _ => throw (.unsupportedCommand command)

def declareConstant (command : SExpr) : List SExpr → Reader Unit
  | [.symbol constant, sort] => do
    let sort ← readSort (← get) sort
    discard <| declare (·.declareConstant constant sort)
  | _ => throw (.unsupportedCommand command)

def defineFunction (command : SExpr) : List SExpr → Reader Unit
  | [.symbol function, .list parameters, output, body] => do
    let output ← readSort (← get) output
    let bound ← parameters.mapM readBinding
    let body ← readTerm bound.reverse body
    discard <| declare (·.defineFunction function (bound.map Prod.snd) output body)
  | _ => throw (.unsupportedCommand command)

def assertTerm (name : Option String) (command : SExpr) : List SExpr → Reader Unit
  | [body] => do
    let formula ← readTerm [] body
    modify (·.addAssertion name formula)
  | _ => throw (.unsupportedCommand command)

def setLogic (command : SExpr) : List SExpr → Reader Unit
  | [.symbol _] => return ()
  | _ => throw (.unsupportedCommand command)

def setOption (command : SExpr) : List SExpr → Reader Unit
  | [.atom (.keyword _), _] => return ()
  | _ => throw (.unsupportedCommand command)

/-- Reads one command; `name` is the text of the comment right before it. -/
def readCommand (dialect : Dialect) (name : Option String) : List SExpr → Reader Unit
  | .symbol head :: args =>
    let command := SExpr.list (.symbol head :: args)
    if head = "declare-sort" then declareSort command args
    else if head = "declare-fun" then declareFunction command args
    else if head = "declare-const" then declareConstant command args
    else if head = "define-fun" then defineFunction command args
    else if dialect = .script ∧ head = "assert" then assertTerm name command args
    else if dialect = .script ∧ head = "set-logic" then setLogic command args
    else if dialect = .script ∧ head = "set-option" then setOption command args
    else throw (.unsupportedCommand command)
  | items => throw (.expectedCommand (.list items))

/-- Counts of sorts, in the order of their names. A count takes the place of an
earlier one of the same sort. -/
def insertCount (report : String × Nat) : List (String × Nat) → List (String × Nat)
  | [] => [report]
  | r :: counts =>
    if report.1 < r.1 then report :: r :: counts
    else if report.1 = r.1 then report :: counts
    else r :: insertCount report counts

/-- Reads commands in turn. A comment names the assertion right after it; the
cardinalities that are reported are returned. -/
def readCommands (dialect : Dialect) :
    Option String → List (String × Nat) → List SExpr → Reader (List (String × Nat))
  | _, counts, [] => return counts
  | name, counts, item :: rest =>
    match item with
    | .atom (.comment text) => readCommands dialect (some text) counts rest
    | .atom (.cardinality sort count) =>
      readCommands dialect none (insertCount (sort, count) counts) rest
    | .list command => do
      readCommand dialect name command
      readCommands dialect none counts rest
    | found => throw (.expectedCommand found)

/-- A report may wrap its commands as `(model …)`, or in bare parentheses. -/
def unwrap : List SExpr → List SExpr
  | [.list items] =>
    match items with
    | .symbol head :: rest => if head = "model" then rest else [.list items]
    | _ => items
  | items => items

/-- Records reported cardinalities in turn, and ignores those of sorts that are
not declared. -/
def recordCounts : List (String × Nat) → Reader Unit
  | [] => return ()
  | (sort, count) :: counts => do
    if ((← get).sortDeclaration? sort).isSome then
      set (← ((← get).setCardinality sort count).mapError ReadError.unrecorded)
    recordCounts counts

end Reader

/-- The script that a list of s-expressions stands for. -/
def ofSExprs (dialect : Dialect) (items : List SExpr) : Except ReadError Script := do
  let (counts, s) ← (Reader.readCommands dialect none [] (Reader.unwrap items)).run empty
  let (_, s) ← (Reader.recordCounts counts).run s
  return s

def read (dialect : Dialect) (text : String) : Except ReadError Script := do
  let tokens ← (Token.ofText text).mapError .lexing
  let items ← (SExpr.ofTokens (SExpr.dropNestedComments 0 tokens)).mapError .unbalanced
  ofSExprs dialect items

end Script

end TupleLogic
