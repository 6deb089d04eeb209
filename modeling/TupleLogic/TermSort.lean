/-! Sorts of terms. A relation is a set of tuples; a set of sets and a tuple
without columns can be written down but are refused by the checked
constructors of `TupleLogic.Term.Build`. Sorts are nested through lists, so
equality and order are decided here by recursion on both sides. -/

namespace TupleLogic

inductive TermSort where
  /-- A sort introduced by a declaration, such as `Atom`. -/
  | named (name : String)
  | set (element : TermSort)
  | tuple (columns : List TermSort)
  | int
  | real
  | string
  | bool
  deriving Repr, Inhabited

namespace TermSort

mutual
def decEq : (a b : TermSort) → Decidable (a = b)
  | .named m, .named n =>
    if h : m = n then .isTrue (h ▸ rfl) else .isFalse fun e => h (by cases e; rfl)
  | .set a, .set b => match decEq a b with
    | .isTrue h => .isTrue (h ▸ rfl)
    | .isFalse h => .isFalse fun e => h (by cases e; rfl)
  | .tuple as, .tuple bs => match decEqList as bs with
    | .isTrue h => .isTrue (h ▸ rfl)
    | .isFalse h => .isFalse fun e => h (by cases e; rfl)
  | .int, .int | .real, .real | .string, .string | .bool, .bool => .isTrue rfl
  | .named _, .set _ | .named _, .tuple _ | .named _, .int | .named _, .real | .named _, .string
  | .named _, .bool | .set _, .named _ | .set _, .tuple _ | .set _, .int | .set _, .real
  | .set _, .string | .set _, .bool | .tuple _, .named _ | .tuple _, .set _ | .tuple _, .int
  | .tuple _, .real | .tuple _, .string | .tuple _, .bool | .int, .named _ | .int, .set _
  | .int, .tuple _ | .int, .real | .int, .string | .int, .bool | .real, .named _ | .real, .set _
  | .real, .tuple _ | .real, .int | .real, .string | .real, .bool | .string, .named _
  | .string, .set _ | .string, .tuple _ | .string, .int | .string, .real | .string, .bool
  | .bool, .named _ | .bool, .set _ | .bool, .tuple _ | .bool, .int | .bool, .real
  | .bool, .string => .isFalse nofun

def decEqList : (as bs : List TermSort) → Decidable (as = bs)
  | [], [] => .isTrue rfl
  | [], _ :: _ | _ :: _, [] => .isFalse nofun
  | a :: as, b :: bs => match decEq a b, decEqList as bs with
    | .isTrue h, .isTrue hs => .isTrue (h ▸ hs ▸ rfl)
    | .isFalse h, _ => .isFalse fun e => h (by cases e; rfl)
    | _, .isFalse hs => .isFalse fun e => hs (by cases e; rfl)
end

instance : DecidableEq TermSort := decEq

/-- The sort of relational atoms. -/
def atom : TermSort := .named "Atom"

def isSet : TermSort → Bool
  | .set _ => true
  | _ => false

/-- Neither a set nor a tuple. -/
def isAtomic : TermSort → Bool
  | .set _ | .tuple _ => false
  | _ => true

/-- The columns of a relation, or of a bare tuple. -/
def columns? : TermSort → Option (List TermSort)
  | .set (.tuple cs) | .tuple cs => some cs
  | _ => none

/-- The number of columns of a relation or tuple, and zero for every other sort. -/
def arity (s : TermSort) : Nat := (s.columns?.map List.length).getD 0

def element? : TermSort → Option TermSort
  | .set e => some e
  | _ => none

mutual
/-- The sort as solvers write it, names unquoted. -/
def text : TermSort → String
  | .named n => n
  | .set e => "(Set " ++ e.text ++ ")"
  | .tuple cs => "(Tuple" ++ texts cs ++ ")"
  | .int => "Int"
  | .real => "Real"
  | .string => "String"
  | .bool => "Bool"

/-- Each sort of the list after a blank. -/
def texts : List TermSort → String
  | [] => ""
  | c :: cs => " " ++ c.text ++ texts cs
end

/-- The position of a sort's constructor in the order of sorts. -/
def rank : TermSort → Nat
  | .named _ => 0
  | .set _ => 1
  | .tuple _ => 2
  | .int => 3
  | .real => 4
  | .string => 5
  | .bool => 6

mutual
/-- Sorts are ordered by constructor, then by content: names by their UTF-8
bytes, columns lexicographically. Byte order is code point order. -/
def cmp : TermSort → TermSort → Ordering
  | .named m, .named n => compare m n
  | .set a, .set b => cmp a b
  | .tuple as, .tuple bs => cmpList as bs
  | a, b => compare a.rank b.rank

def cmpList : List TermSort → List TermSort → Ordering
  | [], [] => .eq
  | [], _ :: _ => .lt
  | _ :: _, [] => .gt
  | a :: as, b :: bs => (cmp a b).then (cmpList as bs)
end

end TermSort

end TupleLogic
