import TupleLogic.Script

/-! The sort of a term in a script. Only what is needed to name a sort is
checked: operands of comparisons and connectives are not looked at, set
operations compare the sorts of their operands, a join compares the columns
that it drops, and a call must name a declaration. -/

namespace TupleLogic

/-- The columns of a set of tuples, as an operand of `op`. -/
def TermSort.columnsFor (op : RelationOp) : TermSort → Except TermError (List TermSort)
  | .set (.tuple cs) => .ok cs
  | s => .error (.malformed (.notRelation op s))

/-- A join drops the last column on the left and the first on the right. -/
def TermSort.joined (l r : TermSort) : Except TermError TermSort := do
  let lc ← l.columnsFor .join
  let rc ← r.columnsFor .join
  if lc.length + rc.length ≤ 2 then throw (.malformed .joinLeavesNothing)
  match lc.getLast?, rc.head? with
  | some a, some b =>
    if a = b then TermSort.mkRelation (lc.dropLast ++ rc.tail)
    else throw (.malformed (.joinMismatch l r))
  | _, _ => throw .missingColumn

def TermSort.transposed (s : TermSort) : Except TermError TermSort := do
  TermSort.mkRelation (← s.columnsFor .transpose).reverse

/-- A closure needs two equal columns and keeps them. -/
def TermSort.closed (s : TermSort) : Except TermError TermSort := do
  match ← s.columnsFor .closure with
  | [a, b] => if a = b then return s else throw (.malformed (.closureOf s))
  | _ => throw (.malformed (.closureOf s))

def TermSort.multiplied (l r : TermSort) : Except TermError TermSort := do
  TermSort.mkRelation ((← l.columnsFor .product) ++ (← r.columnsFor .product))

def TermSort.selected (column : Int) : TermSort → Except TermError TermSort
  | .tuple cs =>
    match (if column < 0 then none else cs[column.toNat]?) with
    | some c => .ok c
    | none => .error (.malformed (.columnOutOfRange column cs.length))
  | s => .error (.malformed (.selectFrom s))

namespace Script

variable (s : Script)

mutual
def sortOf : Term → Except TermError TermSort
  | .ref id => do return (← s.decl id).sort
  | .int _ => .ok .int
  | .bool _ => .ok .bool
  | .emptySet sort | .fullSet sort =>
    if sort.isSet then .ok sort else .error (.malformed (.literalOfNonSet sort))
  | .unary op a => match op with
    | .not => .ok .bool
    | .singleton => do TermSort.mkSet (← sortOf a)
    | .transpose => do (← sortOf a).transposed
    | .closure => do (← sortOf a).closed
    | .complement => sortOf a
  | .binary op a b => match op with
    | .implies | .eq | .member | .subset | .lt | .le | .gt | .ge => .ok .bool
    | .union | .intersection | .difference => do
      let l ← sortOf a
      let r ← sortOf b
      if l = r then return l else throw (.malformed (.differentSorts op l r))
    | .join => do
      let l ← sortOf a
      let r ← sortOf b
      l.joined r
    | .product => do
      let l ← sortOf a
      let r ← sortOf b
      l.multiplied r
    | .select => match a with
      | .int column => do (← sortOf b).selected column
      | _ => .error (.malformed .columnNotConstant)
  | .nary op args => match op with
    | .and | .or | .distinct => .ok .bool
    | .tuple => do TermSort.mkTuple (← sortsOf args)
    | .insert => sortOfLast args
  | .quantified _ _ _ => .ok .bool
  | .ite _ a _ => sortOf a
  | .call f _ => match s.lookup f with
    | some id => do return (← s.decl id).sort
    | none => .error (.malformed (.functionUnknown f))

def sortsOf : List Term → Except TermError (List TermSort)
  | [] => .ok []
  | t :: ts => do
    let sort ← sortOf t
    return sort :: (← sortsOf ts)

/-- The sort of the last term, where the set stands that elements go into. -/
def sortOfLast : List Term → Except TermError TermSort
  | [] => .error (.malformed .insertWithoutSet)
  | t :: ts => if ts.isEmpty then sortOf t else sortOfLast ts
end

end Script

end TupleLogic
