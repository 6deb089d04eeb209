import Mathlib.Data.Set.Card
import TupleLogic.Relational.Model
import TupleLogic.TermSort
import TupleLogic.Text.Decimal
import TupleLogic.Proofs.Tuples

/-! What relational expressions mean in an instance: relations are sets of
tuples of atoms and integers, and formulas are true or false. The meaning is
total, and it is meant for expressions that are well typed: `HasColumns` gives
the columns of a relation and `WellTyped` says that formulas are made of
relations with fitting columns. -/

namespace TupleLogic.Relational

/-- What stands in one column of a tuple. -/
inductive Cell (α : Type) where
  | atom (a : α)
  | int (n : Int)
  deriving DecidableEq

inductive ColumnType where
  | atom
  | int
  deriving DecidableEq, Repr

def Cell.type {α : Type} : Cell α → ColumnType
  | .atom _ => .atom
  | .int _ => .int

def Column.type : Column → ColumnType
  | .sig _ | .univ => .atom
  | .int => .int

def ColumnType.sort : ColumnType → TermSort
  | .atom => .atom
  | .int => .int

abbrev Relation (α : Type) := Set (List (Cell α))

/-- The atoms of each signature and the tuples of each field; the first column
of a field holds the atom that the field belongs to. -/
structure Instance (α : Type) where
  sig : SigId → Set α
  field : FieldId → Relation α

/-- The atoms that variables stand for, innermost first. -/
abbrev Env (α : Type) := List (String × α)

/-- Binds the names from left to right, so that later ones hide earlier ones. -/
def Env.bind {α : Type} (env : Env α) (names : List String) (atoms : List α) : Env α :=
  (names.zip atoms).reverse ++ env

variable {α : Type}

def Relation.ofAtoms (s : Set α) : Relation α := {t | ∃ a ∈ s, [.atom a] = t}

def Relation.diagonal : Relation α := {t | ∃ a : α, [.atom a, .atom a] = t}

/-- The relation that an expression denotes. Formulas denote none. -/
noncomputable def Instance.denote (I : Instance α) (env : Env α) : Expr → Relation α
  | .sig id => .ofAtoms (I.sig id)
  | .field id => I.field id
  | .builtin .univ => .ofAtoms Set.univ
  | .builtin .none => ∅
  | .builtin .iden => .diagonal
  | .builtin .int => {t | ∃ n : Int, [.int n] = t}
  | .var x => .ofAtoms {a | env.lookup x = some a}
  | .int n => {[.int n]}
  | .unary op e => match op with
    | .closure => Tuples.closure (I.denote env e)
    | .reflexiveClosure => Tuples.closure (I.denote env e) ∪ .diagonal
    | .transpose => Tuples.transpose (I.denote env e)
    | .toInt | .toSigned => I.denote env e
    | .card => {[.int (I.denote env e).ncard]}
    | .no | .some | .one | .lone | .not => ∅
  | .binary op a b => match op with
    | .join => Tuples.join (I.denote env a) (I.denote env b)
    | .union => I.denote env a ∪ I.denote env b
    | .intersection => I.denote env a ∩ I.denote env b
    | .difference => I.denote env a \ I.denote env b
    | .product => Tuples.product (I.denote env a) (I.denote env b)
    | _ => ∅
  | .list _ _ | .quantified _ _ _ => ∅

/-- Numbers are compared where each side holds exactly one. -/
def Relation.Compares (rel : Int → Int → Prop) (r s : Relation α) : Prop :=
  ∃ m n, r = {[.int m]} ∧ s = {[.int n]} ∧ rel m n

/-- The bindings let the atoms, from left to right, be the values of their
variables; each bound is read where the groups before it are bound. -/
inductive Instance.Assigns (I : Instance α) :
    List (Binding Expr) → Env α → List α → Env α → Prop where
  | nil {env : Env α} : I.Assigns [] env [] env
  | cons {b : Binding Expr} {bs : List (Binding Expr)} {env env' : Env α} {first rest : List α} :
      first.length = b.names.length → (∀ a ∈ first, [.atom a] ∈ I.denote env b.bound) →
      I.Assigns bs (env.bind b.names first) rest env' → I.Assigns (b :: bs) env (first ++ rest) env'

mutual
/-- Whether a formula is true. Relations are not. -/
def Instance.Holds (I : Instance α) : Expr → Env α → Prop
  | .unary op e, env => match op with
    | .no => I.denote env e = ∅
    | .some => (I.denote env e).Nonempty
    | .one => ∃ t, I.denote env e = {t}
    | .lone => (I.denote env e).Subsingleton
    | .not => ¬ I.Holds e env
    | _ => False
  | .binary op a b, env => match op with
    | .equals => I.denote env a = I.denote env b
    | .notEquals => I.denote env a ≠ I.denote env b
    | .inside => I.denote env a ⊆ I.denote env b
    | .notInside => ¬ I.denote env a ⊆ I.denote env b
    | .and => I.Holds a env ∧ I.Holds b env
    | .or => I.Holds a env ∨ I.Holds b env
    | .implies => I.Holds a env → I.Holds b env
    | .iff => I.Holds a env ↔ I.Holds b env
    | .lt => (I.denote env a).Compares (· < ·) (I.denote env b)
    | .le => (I.denote env a).Compares (· ≤ ·) (I.denote env b)
    | .gt => (I.denote env a).Compares (· > ·) (I.denote env b)
    | .ge => (I.denote env a).Compares (· ≥ ·) (I.denote env b)
    | _ => False
  | .list .and es, env => ∀ p ∈ I.meanings es env, p
  | .list .or es, env => ∃ p ∈ I.meanings es env, p
  | .quantified q bs body, env =>
    let solutions := {atoms | ∃ env', I.Assigns bs env atoms env' ∧ I.Holds body env'}
    match q with
    | .all => ∀ atoms env', I.Assigns bs env atoms env' → I.Holds body env'
    | .no => solutions = ∅
    | .some => solutions.Nonempty
    | .one => ∃ atoms, solutions = {atoms}
    | .lone => solutions.Subsingleton
  | .sig _, _ | .field _, _ | .builtin _, _ | .var _, _ | .int _, _ => False

def Instance.meanings (I : Instance α) : List Expr → Env α → List Prop
  | [], _ => []
  | e :: es, env => I.Holds e env :: I.meanings es env
end

variable (m : Model)

/-- The columns of a relation. Integer literals are those of 64 bits. -/
inductive HasColumns : Expr → List ColumnType → Prop where
  | sig (id : SigId) : HasColumns (.sig id) [.atom]
  | field {id : FieldId} {f : Field} : m.field? id = some f →
      HasColumns (.field id) (.atom :: f.columns.map Column.type)
  | univ : HasColumns (.builtin .univ) [.atom]
  | none : HasColumns (.builtin .none) [.atom]
  | iden : HasColumns (.builtin .iden) [.atom, .atom]
  | var (x : String) : HasColumns (.var x) [.atom]
  | int {n : Int} : Text.fitsSigned64 n = true → HasColumns (.int n) [.int]
  | toInt {e cs} : HasColumns e cs → HasColumns (.unary .toInt e) cs
  | toSigned {e cs} : HasColumns e cs → HasColumns (.unary .toSigned e) cs
  | card {e cs} : HasColumns e cs → HasColumns (.unary .card e) [.int]
  | transpose {e c d} : HasColumns e [c, d] → HasColumns (.unary .transpose e) [d, c]
  | closure {e c} : HasColumns e [c, c] → HasColumns (.unary .closure e) [c, c]
  | reflexiveClosure {e} : HasColumns e [.atom, .atom] →
      HasColumns (.unary .reflexiveClosure e) [.atom, .atom]
  | join {a b c cs ds} : HasColumns a (cs ++ [c]) → HasColumns b (c :: ds) → cs ++ ds ≠ [] →
      HasColumns (.binary .join a b) (cs ++ ds)
  | union {a b cs} : HasColumns a cs → HasColumns b cs → HasColumns (.binary .union a b) cs
  | intersection {a b cs} : HasColumns a cs → HasColumns b cs →
      HasColumns (.binary .intersection a b) cs
  | difference {a b cs} : HasColumns a cs → HasColumns b cs → HasColumns (.binary .difference a b) cs
  | product {a b cs ds} : HasColumns a cs → HasColumns b ds →
      HasColumns (.binary .product a b) (cs ++ ds)

inductive WellTyped : Expr → Prop where
  | multiplicity {op e cs} : op ∈ [.no, .some, .one, .lone] → HasColumns m e cs →
      WellTyped (.unary op e)
  | not {e} : WellTyped e → WellTyped (.unary .not e)
  | relations {op a b cs} : op ∈ [.equals, .notEquals, .inside, .notInside] →
      HasColumns m a cs → HasColumns m b cs → WellTyped (.binary op a b)
  | numbers {op a b} : op ∈ [.lt, .le, .gt, .ge] → HasColumns m a [.int] → HasColumns m b [.int] →
      WellTyped (.binary op a b)
  | connective {op a b} : op ∈ [.and, .or, .implies, .iff] → WellTyped a → WellTyped b →
      WellTyped (.binary op a b)
  | list {op es} : (∀ e ∈ es, WellTyped e) → WellTyped (.list op es)
  | quantified {q bs body} : (∀ b ∈ bs, HasColumns m b.bound [.atom]) →
      bs.flatMap Binding.names ≠ [] → WellTyped body → WellTyped (.quantified q bs body)

/-! ## Expressions that count, and those that involve integers -/

mutual
/-- Whether a cardinality occurs. -/
def Expr.counts : Expr → Bool
  | .sig _ | .field _ | .builtin _ | .var _ | .int _ => false
  | .unary op e => decide (op = .card) || e.counts
  | .binary _ a b => a.counts || b.counts
  | .list _ es => countsAny es
  | .quantified _ bs body => countsBound bs || body.counts

def countsAny : List Expr → Bool
  | [] => false
  | e :: es => e.counts || countsAny es

def countsBound : List (Binding Expr) → Bool
  | [] => false
  | b :: bs => b.bound.counts || countsBound bs
end

mutual
/-- The expressions whose cardinalities occur. -/
def Expr.counted : Expr → List Expr
  | .sig _ | .field _ | .builtin _ | .var _ | .int _ => []
  | .unary op e => if op = .card then e :: e.counted else e.counted
  | .binary _ a b => a.counted ++ b.counted
  | .list _ es => countedAll es
  | .quantified _ bs body => countedBound bs ++ body.counted

def countedAll : List Expr → List Expr
  | [] => []
  | e :: es => e.counted ++ countedAll es

def countedBound : List (Binding Expr) → List Expr
  | [] => []
  | b :: bs => b.bound.counted ++ countedBound bs
end

/-- No counted expression has more elements than a number of 64 bits can say. -/
def Instance.CountsFit (I : Instance α) (e : Expr) : Prop :=
  ∀ c ∈ e.counted, (I.denote [] c).ncard ≤ 9223372036854775807

def Field.usesInt (f : Field) : Bool := f.columns.contains .int

mutual
/-- Whether a field of integers occurs, or an integer other than as the bound
of a cardinality. -/
def Expr.usesInt : Expr → Bool
  | .sig _ | .builtin _ | .var _ => false
  | .field id => (m.field? id).any Field.usesInt
  | .int _ => true
  | .unary op e => decide (op = .card) || e.usesInt
  | .binary op a b => (a.usesInt || b.usesInt) && !(op.comparison?.isSome &&
      ((a.countsAtoms && b.literal?.isSome) || (b.countsAtoms && a.literal?.isSome)))
  | .list _ es => usesIntAny es
  | .quantified _ bs body => usesIntBound bs || body.usesInt

/-- A cardinality, below casts, of an expression without integers. -/
def Expr.countsAtoms : Expr → Bool
  | .unary op e => match op with
    | .toInt | .toSigned => e.countsAtoms
    | .card => !e.usesInt
    | _ => false
  | _ => false

def usesIntAny : List Expr → Bool
  | [] => false
  | e :: es => e.usesInt || usesIntAny es

def usesIntBound : List (Binding Expr) → Bool
  | [] => false
  | b :: bs => b.bound.usesInt || usesIntBound bs
end

/-- Integers are involved in what the expression means. -/
def InvolvesInt (e : Expr) : Prop := e.usesInt m = true

/-! ## Typed and finite instances -/

/-- The tuples of each field have the columns that the model declares. -/
def Instance.Typed (I : Instance α) : Prop :=
  ∀ {id : FieldId} {f : Field} {t : List (Cell α)}, m.field? id = some f → t ∈ I.field id →
    t.map Cell.type = .atom :: f.columns.map Column.type

variable {m} {I : Instance α} {env : Env α}

/-- The ends of a chain of pairs have the columns of the pairs. -/
theorem types_of_mem_closure {r : Relation α} {c : ColumnType}
    (hr : ∀ t ∈ r, t.map Cell.type = [c, c]) {t : List (Cell α)} (ht : t ∈ Tuples.closure r) :
    t.map Cell.type = [c, c] := by
  obtain ⟨x, y, h, rfl⟩ := ht
  obtain ⟨a, hxa, _⟩ := Relation.TransGen.head'_iff.mp h
  obtain ⟨b, _, hby⟩ := Relation.TransGen.tail'_iff.mp h
  have hx := hr _ hxa
  have hy := hr _ hby
  simp only [List.map_cons, List.map_nil, List.cons.injEq, and_true] at hx hy ⊢
  exact ⟨hx.1, hy.2⟩

theorem types_of_mem_denote (hI : I.Typed m) {e : Expr} {cs : List ColumnType}
    (h : HasColumns m e cs) : ∀ t ∈ I.denote env e, t.map Cell.type = cs := by
  induction h with
  | sig id | univ | var x =>
    rintro _ ⟨a, _, rfl⟩
    rfl
  | field hf => exact fun t ht => hI hf ht
  | none => exact fun t ht => ht.elim
  | iden =>
    rintro _ ⟨a, rfl⟩
    rfl
  | int _ | card _ _ =>
    rintro _ rfl
    rfl
  | toInt _ ih | toSigned _ ih => exact ih
  | transpose _ ih =>
    intro t ht
    have := ih _ ht
    rw [List.map_reverse, List.reverse_eq_iff] at this
    exact this
  | closure _ ih => exact fun t ht => types_of_mem_closure ih ht
  | reflexiveClosure _ ih =>
    rintro t (ht | ⟨a, rfl⟩)
    · exact types_of_mem_closure ih ht
    · rfl
  | join _ _ _ iha ihb =>
    rintro _ ⟨xs, c, ys, hx, hy, rfl⟩
    have hxs := iha _ hx
    have hys := ihb _ hy
    rw [List.map_append] at hxs ⊢
    rw [List.map_cons] at hys
    rw [(List.append_inj' hxs rfl).1, (List.cons.inj hys).2]
  | union _ _ iha ihb => exact fun t ht => ht.elim (iha t) (ihb t)
  | intersection _ _ iha _ | difference _ _ iha _ => exact fun t ht => iha t ht.1
  | product _ _ iha ihb =>
    rintro _ ⟨xs, hx, ys, hy, rfl⟩
    rw [List.map_append, iha xs hx, ihb ys hy]

theorem InvolvesInt.unary {op : UnaryOp} {e : Expr} (h : InvolvesInt m e) :
    InvolvesInt m (.unary op e) := by
  unfold InvolvesInt at h ⊢
  rw [Expr.usesInt, h, Bool.or_true]

theorem InvolvesInt.quantified {q : Quantifier} {bs : List (Binding Expr)} {body : Expr}
    (h : InvolvesInt m body) : InvolvesInt m (.quantified q bs body) := by
  unfold InvolvesInt at h ⊢
  rw [Expr.usesInt, h, Bool.or_true]

/-- Whether an operator that compares nothing involves integers depends on
its operands. -/
theorem InvolvesInt.binary {op : BinaryOp} {a b : Expr} (hop : op.comparison? = none)
    (h : InvolvesInt m a ∨ InvolvesInt m b) : InvolvesInt m (.binary op a b) := by
  unfold InvolvesInt at h ⊢
  simp [Expr.usesInt, hop, h]

/-- A relation with an integer column involves integers. -/
theorem HasColumns.involvesInt {e : Expr} {cs : List ColumnType} (h : HasColumns m e cs)
    (hint : .int ∈ cs) : InvolvesInt m e := by
  induction h with
  | sig _ | univ | none | iden | var _ | reflexiveClosure _ _ => simp at hint
  | @field id f hf =>
    rw [List.mem_cons, List.mem_map] at hint
    obtain ⟨c, hc, hct⟩ := hint.resolve_left nofun
    rw [InvolvesInt, Expr.usesInt, hf, Option.any_some, Field.usesInt]
    cases c with
    | int => simpa using hc
    | sig _ | univ => cases hct
  | int _ | card _ _ => rfl
  | toInt _ ih | toSigned _ ih => exact ih hint
  | transpose _ ih =>
    simpa [InvolvesInt, Expr.usesInt] using ih (by simpa [or_comm] using hint)
  | closure _ ih => simpa [InvolvesInt, Expr.usesInt] using ih hint
  | join _ _ _ iha ihb =>
    rcases List.mem_append.mp hint with h | h
    · exact .binary rfl (.inl (iha (by simp [h])))
    · exact .binary rfl (.inr (ihb (by simp [h])))
  | product _ _ iha ihb =>
    rcases List.mem_append.mp hint with h | h
    · exact .binary rfl (.inl (iha h))
    · exact .binary rfl (.inr (ihb h))
  | union _ _ iha _ | intersection _ _ iha _ | difference _ _ iha _ =>
    exact .binary rfl (.inl (iha hint))

theorem finite_ofAtoms [Finite α] (s : Set α) : (Relation.ofAtoms s).Finite :=
  (Set.toFinite s).image fun a => [Cell.atom a]

theorem finite_denote [Finite α] (hI : ∀ id, (I.field id).Finite) {e : Expr}
    {cs : List ColumnType} (h : HasColumns m e cs) : (I.denote env e).Finite := by
  have hdiag : (Relation.diagonal : Relation α).Finite := by
    refine (Set.finite_univ.image fun a => [Cell.atom a, .atom a]).subset ?_
    rintro _ ⟨a, rfl⟩
    exact ⟨a, trivial, rfl⟩
  induction h with
  | sig _ | univ | var _ => exact finite_ofAtoms _
  | field _ => exact hI _
  | none => exact Set.finite_empty
  | iden => exact hdiag
  | int _ | card _ _ => exact Set.finite_singleton _
  | toInt _ ih | toSigned _ ih => exact ih
  | transpose _ ih => exact Tuples.finite_transpose ih
  | closure _ ih => exact Tuples.finite_closure ih
  | reflexiveClosure _ ih => exact (Tuples.finite_closure ih).union hdiag
  | join _ _ _ iha ihb => exact Tuples.finite_join iha ihb
  | union _ _ iha ihb => exact iha.union ihb
  | intersection _ _ iha _ => exact iha.subset Set.inter_subset_left
  | difference _ _ iha _ => exact iha.subset Set.sdiff_subset
  | product _ _ iha ihb => exact Tuples.finite_product iha ihb

end TupleLogic.Relational
