import Mathlib.Data.List.Forall2
import TupleLogic.SortInference

/-! The sorts that operators take and give. Sort inference looks only at what it
needs to name the sort of a term. The rules here ask every operand of every operator
for its sort, wherever in the term it stands, and say nothing of how many operands
there are. Inference agrees with them. -/

namespace TupleLogic

/-- The sort of an operand and of the result. -/
def UnaryOp.Rule : UnaryOp → TermSort → TermSort → Prop
  | .not, a, result => a = .bool ∧ result = .bool
  | .singleton, a, result => a.isSet = false ∧ result = .set a
  | .transpose, a, result =>
    ∃ cs, cs ≠ [] ∧ a = .set (.tuple cs) ∧ result = .set (.tuple cs.reverse)
  | .closure, a, result => ∃ c, a = .set (.tuple [c, c]) ∧ result = a
  | .complement, a, result => a.isSet = true ∧ result = a

/-- The sorts of two operands and of the result. -/
def BinaryOp.Rule : BinaryOp → TermSort → TermSort → TermSort → Prop
  | .implies, a, b, result => a = .bool ∧ b = .bool ∧ result = .bool
  | .eq, a, b, result => a = b ∧ result = .bool
  | .member, a, b, result => b = .set a ∧ result = .bool
  | .subset, a, b, result => a.isSet = true ∧ a = b ∧ result = .bool
  | .union, a, b, result | .intersection, a, b, result | .difference, a, b, result =>
    a.isSet = true ∧ a = b ∧ result = a
  -- the columns that meet are dropped, and others are left
  | .join, a, b, result => ∃ cs c ds, cs ++ ds ≠ [] ∧ a = .set (.tuple (cs ++ [c])) ∧
    b = .set (.tuple (c :: ds)) ∧ result = .set (.tuple (cs ++ ds))
  | .product, a, b, result => ∃ cs ds, cs ++ ds ≠ [] ∧ a = .set (.tuple cs) ∧
    b = .set (.tuple ds) ∧ result = .set (.tuple (cs ++ ds))
  | .lt, a, b, result | .le, a, b, result | .gt, a, b, result | .ge, a, b, result =>
    a = .int ∧ b = .int ∧ result = .bool
  -- a column is selected by a number, which the rule of selections asks for
  | .select, _, _, _ => False

def NaryOp.Rule : NaryOp → List TermSort → TermSort → Prop
  | .and, sorts, result | .or, sorts, result => (∀ a ∈ sorts, a = .bool) ∧ result = .bool
  | .distinct, sorts, result => (∃ sort, ∀ a ∈ sorts, a = sort) ∧ result = .bool
  | .tuple, sorts, result => sorts ≠ [] ∧ result = .tuple sorts
  | .insert, sorts, result =>
    ∃ elements e, sorts = elements ++ [.set e] ∧ (∀ a ∈ elements, a = e) ∧ result = .set e

/-- The sorts of the arguments that a declaration is applied to. -/
def Declaration.Takes (s : Script) : Declaration → List TermSort → Prop
  | .function _ inputs _, sorts => inputs = sorts
  | .constant _ _, sorts | .variable _ _, sorts => sorts = []
  | .definition _ parameters _ _, sorts =>
    List.Forall₂ (fun x sort => ∃ name, s.arena[x.index]? = some (.variable name sort))
      parameters sorts

namespace Term

/-- The term has the sort by the rules of all its operators. -/
inductive Sorted (s : Script) : Term → TermSort → Prop
  | ref {id d} : s.arena[id.index]? = some d → d.Takes s [] → Sorted s (.ref id) d.sort
  | int {n} : Sorted s (.int n) .int
  | bool {b} : Sorted s (.bool b) .bool
  | emptySet {e} : Sorted s (.emptySet (.set e)) (.set e)
  | fullSet {e} : Sorted s (.fullSet (.set e)) (.set e)
  | unary {op a sort result} : Sorted s a sort → op.Rule sort result →
      Sorted s (.unary op a) result
  | binary {op a b sort sort' result} : Sorted s a sort → Sorted s b sort' →
      op.Rule sort sort' result → Sorted s (.binary op a b) result
  | select {n : Nat} {a cs c} : Sorted s a (.tuple cs) → cs[n]? = some c →
      Sorted s (.binary .select (.int n) a) c
  | nary {op args sorts result} : args.length = sorts.length →
      (∀ x ∈ args.zip sorts, Sorted s x.1 x.2) → op.Rule sorts result →
      Sorted s (.nary op args) result
  | quantified {q vars body} :
      (∀ x ∈ vars, ∃ name sort, s.arena[x.index]? = some (.variable name sort)) →
      Sorted s body .bool → Sorted s (.quantified q vars body) .bool
  | ite {c a b sort} : Sorted s c .bool → Sorted s a sort → Sorted s b sort →
      Sorted s (.ite c a b) sort
  | call {f id d args sorts} : s.lookup f = some id → s.arena[id.index]? = some d →
      d.Takes s sorts → args.length = sorts.length →
      (∀ x ∈ args.zip sorts, Sorted s x.1 x.2) → Sorted s (.call f args) d.sort

/-! ## Inference -/

section Inference

variable {s : Script} {a b : Term} {sort sort' result : TermSort}

theorem sortsOf_of_zip {args : List Term} {cs : List TermSort} (hlen : args.length = cs.length)
    (h : ∀ x ∈ args.zip cs, s.sortOf x.1 = .ok x.2) : s.sortsOf args = .ok cs := by
  induction args generalizing cs with
  | nil => rw [List.length_eq_zero_iff.mp hlen.symm, Script.sortsOf]
  | cons a args ih =>
    obtain ⟨c, cs, rfl⟩ := List.exists_cons_of_length_eq_add_one hlen.symm
    rw [List.zip_cons_cons, List.forall_mem_cons] at h
    rw [Script.sortsOf, h.1, ih (Nat.succ.inj hlen) h.2]
    rfl

theorem sortOfLast_of_zip {args : List Term} {elements : List TermSort}
    (hlen : args.length = (elements ++ [sort]).length)
    (h : ∀ x ∈ args.zip (elements ++ [sort]), s.sortOf x.1 = .ok x.2) :
    s.sortOfLast args = .ok sort := by
  induction elements generalizing args with
  | nil =>
    obtain ⟨a, rfl⟩ := List.length_eq_one_iff.mp hlen
    rw [Script.sortOfLast]
    exact h (a, sort) (List.mem_singleton.mpr rfl)
  | cons e elements ih =>
    obtain ⟨a, args, rfl⟩ := List.exists_cons_of_length_eq_add_one hlen
    have hlen' : args.length = (elements ++ [sort]).length := Nat.succ.inj hlen
    have hne : args.isEmpty = false := by
      cases args with
      | nil => simp at hlen'
      | cons _ _ => rfl
    rw [List.cons_append, List.zip_cons_cons, List.forall_mem_cons] at h
    rw [Script.sortOfLast, hne]
    exact ih hlen' h.2

theorem mkRelation_of_ne_nil {cs : List TermSort} (h : cs ≠ []) :
    TermSort.mkRelation cs = .ok (.set (.tuple cs)) := by
  cases cs with
  | nil => exact absurd rfl h
  | cons c cs => rfl

theorem joined_eq_ok {cs ds : List TermSort} {c : TermSort} (hne : cs ++ ds ≠ []) :
    TermSort.joined (.set (.tuple (cs ++ [c]))) (.set (.tuple (c :: ds))) =
      .ok (.set (.tuple (cs ++ ds))) := by
  have hlen : ¬ (cs ++ [c]).length + (c :: ds).length ≤ 2 := by
    have := List.length_pos_iff.mpr hne
    simp only [List.length_append, List.length_cons, List.length_nil] at this ⊢
    omega
  simp only [TermSort.joined, TermSort.columnsFor, bind, Except.bind, hlen, if_false,
    List.getLast?_concat, List.head?_cons, if_true, List.dropLast_concat, List.tail_cons]
  exact mkRelation_of_ne_nil hne

theorem sortOf_unary {op : UnaryOp} (ha : s.sortOf a = .ok sort) (h : op.Rule sort result) :
    s.sortOf (.unary op a) = .ok result := by
  cases op with
  | not => rw [Script.sortOf, h.2]
  | singleton =>
    obtain ⟨hset, rfl⟩ := h
    simp [Script.sortOf, ha, TermSort.mkSet, hset, bind, Except.bind]
  | transpose =>
    obtain ⟨cs, hcs, rfl, rfl⟩ := h
    rw [Script.sortOf, ha]
    exact mkRelation_of_ne_nil (List.reverse_ne_nil_iff.mpr hcs)
  | closure =>
    obtain ⟨c, rfl, rfl⟩ := h
    simp [Script.sortOf, ha, TermSort.closed, TermSort.columnsFor, bind, Except.bind, pure,
      Except.pure]
  | complement =>
    obtain ⟨_, rfl⟩ := h
    rw [Script.sortOf, ha]

theorem sortOf_binary {op : BinaryOp} (ha : s.sortOf a = .ok sort) (hb : s.sortOf b = .ok sort')
    (h : op.Rule sort sort' result) : s.sortOf (.binary op a b) = .ok result := by
  cases op with
  | implies | subset | lt | le | gt | ge => rw [Script.sortOf, h.2.2]
  | eq | member => rw [Script.sortOf, h.2]
  | union | intersection | difference =>
    obtain ⟨_, rfl, rfl⟩ := h
    simp [Script.sortOf, ha, hb, bind, Except.bind, pure, Except.pure]
  | join =>
    obtain ⟨cs, c, ds, hne, rfl, rfl, rfl⟩ := h
    rw [Script.sortOf, ha, hb]
    exact joined_eq_ok hne
  | product =>
    obtain ⟨cs, ds, hne, rfl, rfl, rfl⟩ := h
    rw [Script.sortOf, ha, hb]
    exact mkRelation_of_ne_nil hne
  | select => cases h

theorem sortOf_nary {op : NaryOp} {args : List Term} {sorts : List TermSort}
    (hlen : args.length = sorts.length) (hargs : ∀ x ∈ args.zip sorts, s.sortOf x.1 = .ok x.2)
    (h : op.Rule sorts result) : s.sortOf (.nary op args) = .ok result := by
  cases op with
  | and | or | distinct => rw [Script.sortOf, h.2]
  | tuple =>
    obtain ⟨hne, rfl⟩ := h
    simp [Script.sortOf, sortsOf_of_zip hlen hargs, TermSort.mkTuple, hne, bind, Except.bind]
  | insert =>
    obtain ⟨elements, e, rfl, _, rfl⟩ := h
    rw [Script.sortOf]
    exact sortOfLast_of_zip hlen hargs

/-- Inference gives the sort that the rules give. -/
theorem Sorted.sortOf (h : a.Sorted s sort) : s.sortOf a = .ok sort := by
  induction h with
  | ref hd _ => simp [Script.sortOf, Script.decl, hd, bind, Except.bind, pure, Except.pure]
  | int | bool | quantified => rw [Script.sortOf]
  | emptySet | fullSet => simp [Script.sortOf, TermSort.isSet]
  | unary _ hrule ih => exact sortOf_unary ih hrule
  | binary _ _ hrule iha ihb => exact sortOf_binary iha ihb hrule
  | @select n _ _ _ _ hc ih =>
    have hn : ¬ (n : Int) < 0 := by omega
    simp [Script.sortOf, ih, TermSort.selected, hc, hn, bind, Except.bind]
  | nary hlen _ hrule ih => exact sortOf_nary hlen ih hrule
  | ite _ _ _ _ iha _ => rw [Script.sortOf, iha]
  | call hf hd => simp [Script.sortOf, hf, Script.decl, hd, bind, Except.bind, pure, Except.pure]

end Inference

end Term

end TupleLogic
