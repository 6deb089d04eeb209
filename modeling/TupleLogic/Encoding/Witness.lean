import TupleLogic.Encoding.Encoder

/-! Encoded expressions with the witnesses that they still owe. A claim that
something exists is not quantified where it is made: its variables and their
guard are witnesses, which travel upwards until a construct is met that can
bind them, and `Encoded.close` binds them there. -/

namespace TupleLogic.Encoding

/-- Variables that must exist such that the guard holds. -/
structure Witness where
  vars : List DeclId
  guard : Term
  deriving Repr

structure Encoded where
  term : Term
  witnesses : List Witness := []
  deriving Repr

/-- A conjunction without the operands that are plainly true. -/
def conjNontrivial (ts : List Term) : Term := .conj (ts.filter fun t => !t.isTrue)

namespace Encoded

def map (f : Term → Term) (e : Encoded) : Encoded := { e with term := f e.term }

/-- Binds all witnesses, in order, around their guards and the term. -/
def close (e : Encoded) : Except TermError Term :=
  if e.witnesses.isEmpty then .ok e.term
  else Term.thereExists (e.witnesses.flatMap Witness.vars)
    (conjNontrivial (e.witnesses.map Witness.guard ++ [e.term]))

end Encoded

open Encoder

/-- A closed formula. -/
def formula (encoding : Encoder Encoded) : Encoder Term := do liftTerm (← encoding).close

/-- A reference to a single value as the set that holds only it. -/
def promote (t : Term) : Encoder Term := do
  match t.decl? with
  | none => return t
  | some id =>
    match (← liftTerm ((← get).script.decl id)).sort with
    | .set _ => return t
    | .tuple _ => return .singleton t
    | _ => return .singleton (← liftTerm (Term.mkTuple [t]))

/-- An expression where a relation is meant. -/
def relation (encoding : Encoder Encoded) : Encoder Encoded := do
  let e ← encoding
  return { e with term := ← promote e.term }

/-- Variables for a tuple of some relation, one for each column. An integer
column takes a variable whose value is the integer. -/
structure Specimen where
  vars : List DeclId
  tuple : Term
  allInt : Bool
  deriving Repr

def specimenColumn (expr : String) : TermSort → Encoder (DeclId × Term)
  | .int => do
    let u ← freshVariable unaryIntSort
    return (u, .select 0 (unaryIntValue (.ref u)))
  | .named n => do
    let x ← freshVariable (.named n)
    return (x, .ref x)
  | sort => unsupported (.columnOfSort expr sort)

/-- A tuple of what `expr`, which has the sort `sort`, denotes. -/
def specimen (expr : String) (sort : TermSort) : Encoder Specimen := do
  match sort.columns? with
  | none => unsupported (.notRelational expr sort)
  | some columns =>
    let elements ← columns.mapM (specimenColumn expr)
    let tuple ← liftTerm (Term.mkTuple (elements.map Prod.snd))
    return ⟨elements.map Prod.fst, tuple, columns.all (· = .int)⟩

end TupleLogic.Encoding
