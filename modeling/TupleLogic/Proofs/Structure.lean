import Mathlib.Data.List.Forall2
import TupleLogic.SortInference
import TupleLogic.Proofs.Tuples

/-! What terms mean in a structure. A structure gives each named sort its
elements and each declaration of a script its meaning. Values are not typed:
an operator applied to the wrong kind of value gives some value, which no
well-sorted term asks for. A quantifier ranges over the sorts that the script
declares for its variables. -/

namespace TupleLogic

/-- A value that is no set. -/
inductive Datum (E : Type) where
  | elem (a : E)
  | int (n : Int)
  | tuple (columns : List (Datum E))

inductive TermValue (E : Type) where
  | datum (d : Datum E)
  | set (s : Set (Datum E))
  | truth (p : Prop)

variable {E : Type}

mutual
def Datum.HasSort (carrier : String → Set E) : TermSort → Datum E → Prop
  | .named n, .elem a => a ∈ carrier n
  | .int, .int _ => True
  | .tuple cs, .tuple ds => Datum.HaveSorts carrier cs ds
  | _, _ => False

def Datum.HaveSorts (carrier : String → Set E) : List TermSort → List (Datum E) → Prop
  | [], [] => True
  | c :: cs, d :: ds => Datum.HasSort carrier c d ∧ Datum.HaveSorts carrier cs ds
  | _, _ => False
end

namespace TermValue

def HasSort (carrier : String → Set E) : TermSort → TermValue E → Prop
  | .set e, .set s => ∀ d ∈ s, d.HasSort carrier e
  | .bool, .truth _ => True
  | sort, .datum d => d.HasSort carrier sort
  | _, _ => False

def holds : TermValue E → Prop
  | .truth p => p
  | _ => False

def elements : TermValue E → Set (Datum E)
  | .set s => s
  | _ => ∅

def toDatum : TermValue E → Datum E
  | .datum d => d
  | _ => .tuple []

def toInt : TermValue E → Int
  | .datum (.int n) => n
  | _ => 0

def column (k : Int) : TermValue E → TermValue E
  | .datum (.tuple ds) => .datum (ds.getD k.toNat (.tuple []))
  | _ => .datum (.tuple [])

/-- The tuples among the elements of a set. -/
def tuples (v : TermValue E) : Set (List (Datum E)) := {t | .tuple t ∈ v.elements}

def ofTuples (r : Set (List (Datum E))) : TermValue E := .set (Datum.tuple '' r)

@[simp] theorem hasSort_datum {carrier : String → Set E} {sort : TermSort} {d : Datum E} :
    (datum d).HasSort carrier sort ↔ d.HasSort carrier sort := by
  cases sort <;> rfl

@[simp] theorem holds_truth (p : Prop) : (truth p : TermValue E).holds ↔ p := Iff.rfl

@[simp] theorem elements_set (s : Set (Datum E)) : (set s).elements = s := rfl

@[simp] theorem toDatum_datum (d : Datum E) : (datum d).toDatum = d := rfl

@[simp] theorem toInt_int (n : Int) : (datum (.int n) : TermValue E).toInt = n := rfl

@[simp] theorem mem_elements_ofTuples {r : Set (List (Datum E))} {t : List (Datum E)} :
    .tuple t ∈ (ofTuples r).elements ↔ t ∈ r := by
  simp [ofTuples]

@[simp] theorem tuples_ofTuples (r : Set (List (Datum E))) : (ofTuples r).tuples = r := by
  ext t
  exact mem_elements_ofTuples

theorem ofTuples_injective : Function.Injective (ofTuples (E := E)) := by
  intro r s h
  rw [← tuples_ofTuples r, h, tuples_ofTuples]

end TermValue

/-- The elements of each named sort, and the value of each declaration for
every list of arguments. Constants and variables take none. -/
structure Structure (E : Type) where
  carrier : String → Set E
  meaning : DeclId → List (TermValue E) → TermValue E

namespace Structure

/-- Lets a variable stand for a value. -/
def set (M : Structure E) (x : DeclId) (v : TermValue E) : Structure E :=
  { M with meaning := fun id args => if id = x then v else M.meaning id args }

/-- Lets variables stand for values, from left to right. -/
def assign (M : Structure E) : List DeclId → List (TermValue E) → Structure E
  | x :: xs, v :: vs => (M.set x v).assign xs vs
  | _, _ => M

/-- The value is one that the variable ranges over. -/
def InDomain (M : Structure E) (s : Script) (x : DeclId) (v : TermValue E) : Prop :=
  ∃ d, s.arena[x.index]? = some d ∧ v.HasSort M.carrier d.sort

def Fits (M : Structure E) (s : Script) : List DeclId → List (TermValue E) → Prop :=
  List.Forall₂ (M.InDomain s)

/-- All values of the elements' sort, for a set of sort `sort`. -/
def full (M : Structure E) : TermSort → Set (Datum E)
  | .set e => {d | d.HasSort M.carrier e}
  | _ => ∅

end Structure

namespace Term

mutual
noncomputable def eval (s : Script) : Term → Structure E → TermValue E
  | .ref id, M => M.meaning id []
  | .int n, _ => .datum (.int n)
  | .bool b, _ => .truth (b = true)
  | .emptySet _, _ => .set ∅
  | .fullSet sort, M => .set (M.full sort)
  | .unary op a, M => match op with
    | .not => .truth (¬ (a.eval s M).holds)
    | .singleton => .set {(a.eval s M).toDatum}
    | .transpose => .ofTuples (Tuples.transpose (a.eval s M).tuples)
    | .closure => .ofTuples (Tuples.closure (a.eval s M).tuples)
    | .complement => match s.sortOf a with
      | .ok sort => .set (M.full sort \ (a.eval s M).elements)
      | .error _ => .set ∅
  | .binary op a b, M => match op with
    | .implies => .truth ((a.eval s M).holds → (b.eval s M).holds)
    | .eq => .truth (a.eval s M = b.eval s M)
    | .member => .truth ((a.eval s M).toDatum ∈ (b.eval s M).elements)
    | .subset => .truth ((a.eval s M).elements ⊆ (b.eval s M).elements)
    | .union => .set ((a.eval s M).elements ∪ (b.eval s M).elements)
    | .intersection => .set ((a.eval s M).elements ∩ (b.eval s M).elements)
    | .difference => .set ((a.eval s M).elements \ (b.eval s M).elements)
    | .join => .ofTuples (Tuples.join (a.eval s M).tuples (b.eval s M).tuples)
    | .product => .ofTuples (Tuples.product (a.eval s M).tuples (b.eval s M).tuples)
    | .lt => .truth ((a.eval s M).toInt < (b.eval s M).toInt)
    | .le => .truth ((a.eval s M).toInt ≤ (b.eval s M).toInt)
    | .gt => .truth ((a.eval s M).toInt > (b.eval s M).toInt)
    | .ge => .truth ((a.eval s M).toInt ≥ (b.eval s M).toInt)
    | .select => (b.eval s M).column (a.eval s M).toInt
  | .nary op args, M => match op with
    | .and => .truth (∀ v ∈ evalAll s args M, v.holds)
    | .or => .truth (∃ v ∈ evalAll s args M, v.holds)
    | .distinct => .truth ((evalAll s args M).Pairwise (· ≠ ·))
    | .tuple => .datum (.tuple ((evalAll s args M).map TermValue.toDatum))
    | .insert => .set ({d | ∃ v ∈ (evalAll s args M).dropLast, v.toDatum = d} ∪
        {d | ∃ v ∈ (evalAll s args M).getLast?, d ∈ v.elements})
  | .quantified q vars body, M => match q with
    | .all => .truth (∀ vs, M.Fits s vars vs → (body.eval s (M.assign vars vs)).holds)
    | .exist => .truth (∃ vs, M.Fits s vars vs ∧ (body.eval s (M.assign vars vs)).holds)
  | .ite c a b, M =>
    open Classical in if (c.eval s M).holds then a.eval s M else b.eval s M
  | .call f args, M => match s.lookup f with
    | some id => M.meaning id (evalAll s args M)
    | none => .truth False

noncomputable def evalAll (s : Script) : List Term → Structure E → List (TermValue E)
  | [], _ => []
  | t :: ts, M => t.eval s M :: evalAll s ts M
end

/-- The term holds in the structure. -/
def Holds (s : Script) (M : Structure E) (t : Term) : Prop := (t.eval s M).holds

end Term

/-- Every assertion holds in the structure. -/
def Structure.Models (M : Structure E) (s : Script) (assertions : List Assertion) : Prop :=
  ∀ a ∈ assertions, a.formula.Holds s M

theorem Structure.models_append {M : Structure E} {s : Script} {as bs : List Assertion} :
    M.Models s (as ++ bs) ↔ M.Models s as ∧ M.Models s bs := List.forall_mem_append

namespace Term

section Operators

variable {s : Script} {M : Structure E} {a b : Term}

theorem evalAll_eq_map (ts : List Term) : evalAll s ts M = ts.map fun t => t.eval s M := by
  induction ts with
  | nil => rfl
  | cons t ts ih => rw [evalAll, ih, List.map_cons]

@[simp] theorem eval_ref (id : DeclId) : (ref id).eval s M = M.meaning id [] := rfl

@[simp] theorem eval_int (n : Int) : (int n).eval s M = .datum (.int n) := rfl

@[simp] theorem eval_emptySet (sort : TermSort) : (emptySet sort).eval s M = .set ∅ := rfl

@[simp] theorem eval_fullSet (sort : TermSort) : (fullSet sort).eval s M = .set (M.full sort) := rfl

@[simp] theorem eval_singleton : (singleton a).eval s M = .set {(a.eval s M).toDatum} := rfl

@[simp] theorem eval_transpose :
    (transpose a).eval s M = .ofTuples (Tuples.transpose (a.eval s M).tuples) := rfl

@[simp] theorem eval_closure :
    (closure a).eval s M = .ofTuples (Tuples.closure (a.eval s M).tuples) := rfl

@[simp] theorem eval_union :
    (union a b).eval s M = .set ((a.eval s M).elements ∪ (b.eval s M).elements) := rfl

@[simp] theorem eval_intersection :
    (intersection a b).eval s M = .set ((a.eval s M).elements ∩ (b.eval s M).elements) := rfl

@[simp] theorem eval_difference :
    (difference a b).eval s M = .set ((a.eval s M).elements \ (b.eval s M).elements) := rfl

@[simp] theorem eval_join :
    (join a b).eval s M = .ofTuples (Tuples.join (a.eval s M).tuples (b.eval s M).tuples) := rfl

@[simp] theorem eval_product :
    (product a b).eval s M = .ofTuples (Tuples.product (a.eval s M).tuples (b.eval s M).tuples) := rfl

@[simp] theorem eval_select (k : Nat) : (select k a).eval s M = (a.eval s M).column k := rfl

@[simp] theorem eval_tuple (ts : List Term) :
    (nary .tuple ts).eval s M = .datum (.tuple (ts.map fun t => (t.eval s M).toDatum)) := by
  rw [eval, evalAll_eq_map, List.map_map]
  rfl

theorem eval_call {g : String} {id : DeclId} (h : s.lookup g = some id) (args : List Term) :
    (call g args).eval s M = M.meaning id (args.map fun t => t.eval s M) := by
  simp only [eval, h, evalAll_eq_map]

@[simp] theorem holds_bool (b : Bool) : (bool b).Holds s M ↔ b = true := Iff.rfl

@[simp] theorem holds_not : (not a).Holds s M ↔ ¬ a.Holds s M := Iff.rfl

@[simp] theorem holds_implies : (implies a b).Holds s M ↔ (a.Holds s M → b.Holds s M) := Iff.rfl

@[simp] theorem holds_equals : (equals a b).Holds s M ↔ a.eval s M = b.eval s M := Iff.rfl

@[simp] theorem holds_member :
    (member a b).Holds s M ↔ (a.eval s M).toDatum ∈ (b.eval s M).elements := Iff.rfl

@[simp] theorem holds_subset :
    (subset a b).Holds s M ↔ (a.eval s M).elements ⊆ (b.eval s M).elements := Iff.rfl

theorem holds_nary_and (ts : List Term) : (nary .and ts).Holds s M ↔ ∀ t ∈ ts, t.Holds s M := by
  change (∀ v ∈ evalAll s ts M, v.holds) ↔ _
  rw [evalAll_eq_map, List.forall_mem_map]
  rfl

theorem holds_nary_or (ts : List Term) : (nary .or ts).Holds s M ↔ ∃ t ∈ ts, t.Holds s M := by
  change (∃ v ∈ evalAll s ts M, v.holds) ↔ _
  rw [evalAll_eq_map]
  simp [Holds]

@[simp] theorem holds_and : (and a b).Holds s M ↔ a.Holds s M ∧ b.Holds s M := by
  rw [and, holds_nary_and]
  simp

theorem holds_conj (ts : List Term) : (conj ts).Holds s M ↔ ∀ t ∈ ts, t.Holds s M := by
  match ts with
  | [] => simp [conj]
  | [t] => simp [conj]
  | t :: u :: ts => exact holds_nary_and _

theorem holds_disj (ts : List Term) : (disj ts).Holds s M ↔ ∃ t ∈ ts, t.Holds s M := by
  match ts with
  | [] => simp [disj]
  | [t] => simp [disj]
  | t :: u :: ts => exact holds_nary_or _

theorem holds_all (vars : List DeclId) (body : Term) : (quantified .all vars body).Holds s M ↔
    ∀ vs, M.Fits s vars vs → body.Holds s (M.assign vars vs) := Iff.rfl

theorem holds_exist (vars : List DeclId) (body : Term) : (quantified .exist vars body).Holds s M ↔
    ∃ vs, M.Fits s vars vs ∧ body.Holds s (M.assign vars vs) := Iff.rfl

/-- A union holds the elements of all its parts. -/
theorem eval_unionAll {ts : List Term} {t : Term} (h : unionAll ts = .ok t)
    (hsets : ∀ u ∈ ts, u.eval s M = .set (u.eval s M).elements) :
    t.eval s M = .set {d | ∃ u ∈ ts, d ∈ (u.eval s M).elements} := by
  have hfold : ∀ (ts : List Term) (t : Term), t.eval s M = .set (t.eval s M).elements →
      (ts.foldl union t).eval s M =
        .set ((t.eval s M).elements ∪ {d | ∃ u ∈ ts, d ∈ (u.eval s M).elements}) := by
    intro ts
    induction ts with
    | nil =>
      intro t ht
      simpa using ht
    | cons u ts ih =>
      intro t _
      rw [List.foldl_cons, ih _ rfl, eval_union, TermValue.elements_set, Set.union_assoc]
      congr 2
      ext d
      simp
  cases ts with
  | nil => cases h
  | cons u ts =>
    cases h
    rw [List.forall_mem_cons] at hsets
    rw [hfold ts u hsets.1]
    congr 1
    ext d
    simp

/-- Formulas are equal if they are equivalent. -/
theorem eval_eq_iff (ha : ∃ p, a.eval s M = .truth p) (hb : ∃ q, b.eval s M = .truth q) :
    a.eval s M = b.eval s M ↔ (a.Holds s M ↔ b.Holds s M) := by
  obtain ⟨p, hp⟩ := ha
  obtain ⟨q, hq⟩ := hb
  rw [Holds, Holds, hp, hq, TermValue.holds_truth, TermValue.holds_truth, TermValue.truth.injEq, eq_iff_iff]

/-- The term has a truth value in every structure. -/
def IsFormula (s : Script) (t : Term) : Prop :=
  ∀ (E : Type) (M : Structure E), ∃ p, t.eval s M = .truth p

theorem isFormula_conj {ts : List Term} (h : ∀ t ∈ ts, t.IsFormula s) : (conj ts).IsFormula s := by
  match ts with
  | [] => exact fun _ _ => ⟨_, rfl⟩
  | [t] => exact h t (List.mem_singleton_self t)
  | t :: u :: ts => exact fun _ _ => ⟨_, rfl⟩

theorem isFormula_disj {ts : List Term} (h : ∀ t ∈ ts, t.IsFormula s) : (disj ts).IsFormula s := by
  match ts with
  | [] => exact fun _ _ => ⟨_, rfl⟩
  | [t] => exact h t (List.mem_singleton_self t)
  | t :: u :: ts => exact fun _ _ => ⟨_, rfl⟩

end Operators

mutual
/-- Every declaration that the term mentions or calls comes before position
`n` of the script. -/
def Below (s : Script) (n : Nat) : Term → Prop
  | .ref id => id.index < n
  | .int _ | .bool _ | .emptySet _ | .fullSet _ => True
  | .unary _ a => a.Below s n
  | .binary _ a b => a.Below s n ∧ b.Below s n
  | .nary _ args => BelowAll s n args
  | .quantified _ _ body => body.Below s n
  | .ite c a b => c.Below s n ∧ a.Below s n ∧ b.Below s n
  | .call f args => (∀ id, s.lookup f = some id → id.index < n) ∧ BelowAll s n args

def BelowAll (s : Script) (n : Nat) : List Term → Prop
  | [] => True
  | t :: ts => t.Below s n ∧ BelowAll s n ts
end

theorem belowAll_iff {s : Script} {n : Nat} {ts : List Term} :
    BelowAll s n ts ↔ ∀ t ∈ ts, t.Below s n := by
  induction ts with
  | nil => simp [BelowAll]
  | cons t ts ih => simp [BelowAll, ih]

theorem below_conj {s : Script} {n : Nat} {ts : List Term} (h : ∀ t ∈ ts, t.Below s n) :
    (conj ts).Below s n := by
  match ts with
  | [] => trivial
  | [t] => exact h t (List.mem_singleton_self t)
  | t :: u :: ts => exact belowAll_iff.mpr h

theorem below_disj {s : Script} {n : Nat} {ts : List Term} (h : ∀ t ∈ ts, t.Below s n) :
    (disj ts).Below s n := by
  match ts with
  | [] => trivial
  | [t] => exact h t (List.mem_singleton_self t)
  | t :: u :: ts => exact belowAll_iff.mpr h

mutual
theorem below_mono {s : Script} {n k : Nat} (hnk : n ≤ k) : ∀ t : Term, t.Below s n → t.Below s k
  | .ref _, h => Nat.lt_of_lt_of_le h hnk
  | .int _, _ | .bool _, _ | .emptySet _, _ | .fullSet _, _ => trivial
  | .unary _ a, h => below_mono hnk a h
  | .binary _ a b, h => ⟨below_mono hnk a h.1, below_mono hnk b h.2⟩
  | .nary _ args, h => belowAll_mono hnk args h
  | .quantified _ _ body, h => below_mono hnk body h
  | .ite c a b, h => ⟨below_mono hnk c h.1, below_mono hnk a h.2.1, below_mono hnk b h.2.2⟩
  | .call _ args, h =>
    ⟨fun id hid => Nat.lt_of_lt_of_le (h.1 id hid) hnk, belowAll_mono hnk args h.2⟩

theorem belowAll_mono {s : Script} {n k : Nat} (hnk : n ≤ k) :
    ∀ ts : List Term, BelowAll s n ts → BelowAll s k ts
  | [], _ => trivial
  | t :: ts, h => ⟨below_mono hnk t h.1, belowAll_mono hnk ts h.2⟩
end

theorem Below.mono {s : Script} {n k : Nat} {t : Term} (h : t.Below s n) (hnk : n ≤ k) :
    t.Below s k := below_mono hnk t h

end Term

namespace Structure

/-- The structures have the same elements, and the same meanings for the first
`n` declarations. -/
def Agrees (n : Nat) (M N : Structure E) : Prop :=
  M.carrier = N.carrier ∧ ∀ id : DeclId, id.index < n → M.meaning id = N.meaning id

theorem Agrees.refl (n : Nat) (M : Structure E) : M.Agrees n M := ⟨rfl, fun _ _ => rfl⟩

theorem Agrees.trans {n : Nat} {M N K : Structure E} (h : M.Agrees n N) (h' : N.Agrees n K) :
    M.Agrees n K :=
  ⟨h.1.trans h'.1, fun id hid => (h.2 id hid).trans (h'.2 id hid)⟩

theorem Agrees.mono {n k : Nat} (hkn : k ≤ n) {M N : Structure E} (h : M.Agrees n N) :
    M.Agrees k N :=
  ⟨h.1, fun id hid => h.2 id (Nat.lt_of_lt_of_le hid hkn)⟩

/-- The structures have the same elements, and the same meanings for all but
the declarations from `lo` up to `hi`. -/
def AgreesOff (lo hi : Nat) (M N : Structure E) : Prop :=
  M.carrier = N.carrier ∧ ∀ id : DeclId, id.index < lo ∨ hi ≤ id.index → M.meaning id = N.meaning id

/-- The structures have the same elements, and the same meanings for the
declarations from `lo` up to `hi`. -/
def AgreesOn (lo hi : Nat) (M N : Structure E) : Prop :=
  M.carrier = N.carrier ∧
    ∀ id : DeclId, lo ≤ id.index → id.index < hi → M.meaning id = N.meaning id

theorem AgreesOn.symm {lo hi : Nat} {M N : Structure E} (h : M.AgreesOn lo hi N) :
    N.AgreesOn lo hi M := ⟨h.1.symm, fun id hlo hhi => (h.2 id hlo hhi).symm⟩

theorem AgreesOn.mono {lo hi lo' hi' : Nat} (hlo : lo ≤ lo') (hhi : hi' ≤ hi) {M N : Structure E}
    (h : M.AgreesOn lo hi N) : M.AgreesOn lo' hi' N :=
  ⟨h.1, fun id hid hid' => h.2 id (Nat.le_trans hlo hid) (Nat.lt_of_lt_of_le hid' hhi)⟩

theorem Agrees.on {n : Nat} {M N : Structure E} (h : M.Agrees n N) (lo : Nat) :
    M.AgreesOn lo n N := ⟨h.1, fun id _ hid => h.2 id hid⟩

theorem AgreesOff.refl (lo hi : Nat) (M : Structure E) : M.AgreesOff lo hi M :=
  ⟨rfl, fun _ _ => rfl⟩

theorem AgreesOff.agrees {lo hi : Nat} {M N : Structure E} (h : M.AgreesOff lo hi N) :
    M.Agrees lo N := ⟨h.1, fun id hid => h.2 id (.inl hid)⟩

theorem AgreesOff.on {lo hi : Nat} {M N : Structure E} (h : M.AgreesOff lo hi N) (hi' : Nat) :
    M.AgreesOn hi hi' N := ⟨h.1, fun id hid _ => h.2 id (.inr hid)⟩

theorem AgreesOff.trans {lo mid hi : Nat} (hlo : lo ≤ mid) (hhi : mid ≤ hi) {M N K : Structure E}
    (h : M.AgreesOff lo mid N) (h' : N.AgreesOff mid hi K) : M.AgreesOff lo hi K := by
  refine ⟨h.1.trans h'.1, fun id hid => ?_⟩
  rw [h.2 id (by omega), h'.2 id (by omega)]

@[simp] theorem carrier_set (M : Structure E) (x : DeclId) (v : TermValue E) :
    (M.set x v).carrier = M.carrier := rfl

@[simp] theorem meaning_set_self (M : Structure E) (x : DeclId) (v : TermValue E)
    (args : List (TermValue E)) : (M.set x v).meaning x args = v := if_pos rfl

theorem meaning_set_of_ne (M : Structure E) {x id : DeclId} (h : id ≠ x) (v : TermValue E) :
    (M.set x v).meaning id = M.meaning id := funext fun _ => if_neg h

@[simp] theorem carrier_assign (M : Structure E) (xs : List DeclId) (vs : List (TermValue E)) :
    (M.assign xs vs).carrier = M.carrier := by
  fun_induction assign M xs vs with
  | case1 M x xs v vs ih => exact ih
  | case2 M => rfl

theorem meaning_assign_of_notMem (M : Structure E) {id : DeclId} (xs : List DeclId)
    (vs : List (TermValue E)) (h : id ∉ xs) : (M.assign xs vs).meaning id = M.meaning id := by
  fun_induction assign M xs vs with
  | case1 M x xs v vs ih =>
    rw [List.mem_cons, not_or] at h
    rw [ih h.2, meaning_set_of_ne M h.1]
  | case2 M => rfl

/-- Different variables have the values that they were given. -/
theorem map_meaning_assign (M : Structure E) {xs : List DeclId} {vs : List (TermValue E)}
    (hnodup : xs.Nodup) (h : xs.length = vs.length) :
    xs.map (fun x => (M.assign xs vs).meaning x []) = vs := by
  induction xs generalizing M vs with
  | nil => exact (List.length_eq_zero_iff.mp h.symm).symm
  | cons x xs ih =>
    cases vs with
    | nil => cases h
    | cons v vs =>
      rw [List.nodup_cons] at hnodup
      rw [List.map_cons, assign, meaning_assign_of_notMem _ xs vs hnodup.1, meaning_set_self,
        ih (M.set x v) hnodup.2 (Nat.succ.inj h)]

theorem assign_append (M : Structure E) {xs : List DeclId} {vs : List (TermValue E)}
    (h : xs.length = vs.length) (ys : List DeclId) (ws : List (TermValue E)) :
    M.assign (xs ++ ys) (vs ++ ws) = (M.assign xs vs).assign ys ws := by
  induction xs generalizing M vs with
  | nil =>
    cases vs with
    | nil => rfl
    | cons v vs => cases h
  | cons x xs ih =>
    cases vs with
    | nil => cases h
    | cons v vs => exact ih (M.set x v) (Nat.succ.inj h)

theorem agreesOff_assign (M : Structure E) {lo hi : Nat} {xs : List DeclId} (vs : List (TermValue E))
    (h : ∀ x ∈ xs, lo ≤ x.index ∧ x.index < hi) : M.AgreesOff lo hi (M.assign xs vs) := by
  refine ⟨(carrier_assign M xs vs).symm, fun id hid => ?_⟩
  refine (meaning_assign_of_notMem M xs vs fun hx => ?_).symm
  have := h id hx
  omega

/-- Variables that come after the first `n` declarations may stand for
anything without a change to those. -/
theorem agrees_assign (M : Structure E) {n : Nat} {xs : List DeclId} (vs : List (TermValue E))
    (h : ∀ x ∈ xs, n ≤ x.index) : M.Agrees n (M.assign xs vs) := by
  refine ⟨(carrier_assign M xs vs).symm, fun id hid => ?_⟩
  refine (meaning_assign_of_notMem M xs vs fun hx => ?_).symm
  exact absurd (h id hx) (Nat.not_le.mpr hid)

theorem agrees_set (M : Structure E) {n : Nat} {x : DeclId} (v : TermValue E) (h : n ≤ x.index) :
    M.Agrees n (M.set x v) := by
  refine ⟨rfl, fun id hid => (meaning_set_of_ne M (fun hx => ?_) v).symm⟩
  rw [hx] at hid
  omega

theorem Agrees.set {n : Nat} {M N : Structure E} (h : M.Agrees n N) (x : DeclId) (v : TermValue E) :
    (M.set x v).Agrees n (N.set x v) := by
  refine ⟨h.1, fun id hid => ?_⟩
  by_cases hx : id = x
  · subst hx
    funext args
    simp
  · rw [meaning_set_of_ne M hx, meaning_set_of_ne N hx, h.2 id hid]

theorem Agrees.assign {n : Nat} {M N : Structure E} (h : M.Agrees n N) (xs : List DeclId)
    (vs : List (TermValue E)) : (M.assign xs vs).Agrees n (N.assign xs vs) := by
  induction xs generalizing M N vs with
  | nil => exact h
  | cons x xs ih =>
    cases vs with
    | nil => exact h
    | cons v vs => exact ih (h.set x v) vs

theorem fits_congr {M N : Structure E} (h : M.carrier = N.carrier) (s : Script) (xs : List DeclId)
    (vs : List (TermValue E)) : M.Fits s xs vs ↔ N.Fits s xs vs := by
  have hd : M.InDomain s = N.InDomain s := by
    funext x v
    simp only [InDomain, h]
  rw [Fits, Fits, hd]

theorem full_congr {M N : Structure E} (h : M.carrier = N.carrier) (sort : TermSort) :
    M.full sort = N.full sort := by
  cases sort <;> simp only [full, h]

end Structure

namespace Term

mutual
/-- The value of a term rests on the declarations that it mentions. -/
theorem eval_congr {s : Script} {n : Nat} : ∀ (t : Term) {M N : Structure E}, t.Below s n →
    M.Agrees n N → t.eval s M = t.eval s N
  | .ref id, _, _, h, hMN => congrFun (hMN.2 id h) []
  | .int _, _, _, _, _ | .bool _, _, _, _, _ | .emptySet _, _, _, _, _ => rfl
  | .fullSet sort, _, _, _, hMN => congrArg TermValue.set (Structure.full_congr hMN.1 sort)
  | .unary op a, _, _, h, hMN => by
    have ha := eval_congr a h hMN
    cases op <;> simp only [eval, ha, Structure.full_congr hMN.1]
  | .binary op a b, _, _, h, hMN => by
    have ha := eval_congr a h.1 hMN
    have hb := eval_congr b h.2 hMN
    cases op <;> simp only [eval, ha, hb]
  | .nary op args, _, _, h, hMN => by
    have ha := evalAll_congr args h hMN
    cases op <;> simp only [eval, ha]
  | .quantified q vars body, M, N, h, hMN => by
    have hb := fun vs => eval_congr body h (hMN.assign vars vs)
    cases q <;> simp only [eval, hb, Structure.fits_congr hMN.1]
  | .ite c a b, _, _, h, hMN => by
    rw [eval, eval, eval_congr c h.1 hMN, eval_congr a h.2.1 hMN, eval_congr b h.2.2 hMN]
  | .call f args, _, _, h, hMN => by
    have ha := evalAll_congr args h.2 hMN
    simp only [eval, ha]
    split
    · rename_i id hid
      rw [hMN.2 id (h.1 id hid)]
    · rfl

theorem evalAll_congr {s : Script} {n : Nat} : ∀ (ts : List Term) {M N : Structure E},
    BelowAll s n ts → M.Agrees n N → evalAll s ts M = evalAll s ts N
  | [], _, _, _, _ => rfl
  | t :: ts, _, _, h, hMN => by
    simp only [evalAll, eval_congr t h.1 hMN, evalAll_congr ts h.2 hMN]
end

theorem holds_congr {s : Script} {n : Nat} {t : Term} {M N : Structure E} (h : t.Below s n)
    (hMN : M.Agrees n N) : t.Holds s M ↔ t.Holds s N := by
  rw [Holds, Holds, eval_congr t h hMN]

end Term

end TupleLogic
