import TupleLogic.Proofs.Growth
import TupleLogic.Proofs.OperatorSorts

/-! Strict sorts. Sort inference looks only at what it needs to name the sort of
a term; `Term.HasSort` holds where every operand of every operator has the sort
that the operator asks for, wherever in the term it stands, and there are as many
operands as a solver wants. What has a strict sort keeps it as the script grows,
and inference finds no other. -/

namespace TupleLogic

theorem Declaration.Takes.extend {s t : Script} {d : Declaration} {sorts : List TermSort}
    (h : d.Takes s sorts) (hst : s.Extends t) : d.Takes t sorts := by
  cases d with
  | definition name parameters output body =>
    exact List.Forall₂.imp (fun _ _ ⟨name, hx⟩ => ⟨name, hst.decl hx⟩) h
  | _ => exact h

namespace Term

inductive HasSort (s : Script) : Term → TermSort → Prop
  | ref {id d} : s.arena[id.index]? = some d → d.Takes s [] → HasSort s (.ref id) d.sort
  | int {n} : HasSort s (.int n) .int
  | bool {b} : HasSort s (.bool b) .bool
  | emptySet {e} : HasSort s (.emptySet (.set e)) (.set e)
  | fullSet {e} : HasSort s (.fullSet (.set e)) (.set e)
  | not {a} : HasSort s a .bool → HasSort s (.unary .not a) .bool
  | singleton {a e} : HasSort s a e → e.isSet = false → HasSort s (.unary .singleton a) (.set e)
  | transpose {a cs} : HasSort s a (.set (.tuple cs)) → cs ≠ [] →
      HasSort s (.unary .transpose a) (.set (.tuple cs.reverse))
  | closure {a c} : HasSort s a (.set (.tuple [c, c])) →
      HasSort s (.unary .closure a) (.set (.tuple [c, c]))
  | complement {a e} : HasSort s a (.set e) → HasSort s (.unary .complement a) (.set e)
  | implies {a b} : HasSort s a .bool → HasSort s b .bool → HasSort s (.binary .implies a b) .bool
  | eq {a b sort} : HasSort s a sort → HasSort s b sort → HasSort s (.binary .eq a b) .bool
  | member {a b e} : HasSort s a e → HasSort s b (.set e) → HasSort s (.binary .member a b) .bool
  | subset {a b e} : HasSort s a (.set e) → HasSort s b (.set e) →
      HasSort s (.binary .subset a b) .bool
  | setOperation {op a b e} : op ∈ [.union, .intersection, .difference] → HasSort s a (.set e) →
      HasSort s b (.set e) → HasSort s (.binary op a b) (.set e)
  /-- The columns that meet are dropped, and others are left. -/
  | join {a b cs c ds} : HasSort s a (.set (.tuple (cs ++ [c]))) →
      HasSort s b (.set (.tuple (c :: ds))) → cs ++ ds ≠ [] →
      HasSort s (.binary .join a b) (.set (.tuple (cs ++ ds)))
  | product {a b cs ds} : HasSort s a (.set (.tuple cs)) → HasSort s b (.set (.tuple ds)) →
      cs ++ ds ≠ [] → HasSort s (.binary .product a b) (.set (.tuple (cs ++ ds)))
  | comparison {op a b} : op ∈ [.lt, .le, .gt, .ge] → HasSort s a .int → HasSort s b .int →
      HasSort s (.binary op a b) .bool
  | select {n : Nat} {a cs c} : HasSort s a (.tuple cs) → cs[n]? = some c →
      HasSort s (.binary .select (.int n) a) c
  | connective {op args} : op ∈ [.and, .or] → args ≠ [] → (∀ a ∈ args, HasSort s a .bool) →
      HasSort s (.nary op args) .bool
  | distinct {args sort} : 2 ≤ args.length → (∀ a ∈ args, HasSort s a sort) →
      HasSort s (.nary .distinct args) .bool
  | tuple {args cs} : args ≠ [] → args.length = cs.length →
      (∀ x ∈ args.zip cs, HasSort s x.1 x.2) → HasSort s (.nary .tuple args) (.tuple cs)
  | insert {elements set e} : elements ≠ [] → (∀ a ∈ elements, HasSort s a e) →
      HasSort s set (.set e) → HasSort s (.nary .insert (elements ++ [set])) (.set e)
  | quantified {q vars body} : vars ≠ [] →
      (∀ x ∈ vars, ∃ name sort, s.arena[x.index]? = some (.variable name sort)) →
      HasSort s body .bool → HasSort s (.quantified q vars body) .bool
  | ite {c a b sort} : HasSort s c .bool → HasSort s a sort → HasSort s b sort →
      HasSort s (.ite c a b) sort
  | call {f id d args sorts} : s.lookup f = some id → s.arena[id.index]? = some d →
      d.Takes s sorts → args ≠ [] → args.length = sorts.length →
      (∀ x ∈ args.zip sorts, HasSort s x.1 x.2) → HasSort s (.call f args) d.sort

variable {s t : Script} {a b : Term} {sort : TermSort}

/-- More declarations do no harm. -/
theorem HasSort.extend (h : a.HasSort s sort) (hst : s.Extends t) : a.HasSort t sort := by
  induction h with
  | ref hd htakes => exact .ref (hst.decl hd) (htakes.extend hst)
  | int => exact .int
  | bool => exact .bool
  | emptySet => exact .emptySet
  | fullSet => exact .fullSet
  | not _ ih => exact .not ih
  | singleton _ he ih => exact .singleton ih he
  | transpose _ hcs ih => exact .transpose ih hcs
  | closure _ ih => exact .closure ih
  | complement _ ih => exact .complement ih
  | implies _ _ iha ihb => exact .implies iha ihb
  | eq _ _ iha ihb => exact .eq iha ihb
  | member _ _ iha ihb => exact .member iha ihb
  | subset _ _ iha ihb => exact .subset iha ihb
  | setOperation hop _ _ iha ihb => exact .setOperation hop iha ihb
  | join _ _ hne iha ihb => exact .join iha ihb hne
  | product _ _ hne iha ihb => exact .product iha ihb hne
  | comparison hop _ _ iha ihb => exact .comparison hop iha ihb
  | select _ hc ih => exact .select ih hc
  | connective hop hne _ ih => exact .connective hop hne ih
  | distinct hlen _ ih => exact .distinct hlen ih
  | tuple hne hlen _ ih => exact .tuple hne hlen ih
  | insert hne _ _ ihs ih => exact .insert hne ihs ih
  | quantified hne hvars _ ih =>
    refine .quantified hne (fun x hx => ?_) ih
    obtain ⟨name, sort, hd⟩ := hvars x hx
    exact ⟨name, sort, hst.decl hd⟩
  | ite _ _ _ ihc iha ihb => exact .ite ihc iha ihb
  | call hf hd htakes hne hlen _ ih =>
    exact .call (hst.lookup hf) (hst.decl hd) (htakes.extend hst) hne hlen ih

/-! ## Inference -/

theorem sorted_zip_replicate {args : List Term} (h : ∀ a ∈ args, a.Sorted s sort) :
    ∀ x ∈ args.zip (List.replicate args.length sort), x.1.Sorted s x.2 := by
  intro x hx
  obtain ⟨harg, hsort⟩ := List.of_mem_zip hx
  rw [List.eq_of_mem_replicate hsort]
  exact h x.1 harg

/-- Strict sorts follow the rules of the operators. -/
theorem HasSort.sorted (h : a.HasSort s sort) : a.Sorted s sort := by
  induction h with
  | ref hd htakes => exact .ref hd htakes
  | int => exact .int
  | bool => exact .bool
  | emptySet => exact .emptySet
  | fullSet => exact .fullSet
  | not _ ih => exact .unary ih ⟨rfl, rfl⟩
  | singleton _ he ih => exact .unary ih ⟨he, rfl⟩
  | transpose _ hcs ih => exact .unary ih ⟨_, hcs, rfl, rfl⟩
  | closure _ ih => exact .unary ih ⟨_, rfl, rfl⟩
  | complement _ ih => exact .unary ih ⟨rfl, rfl⟩
  | implies _ _ iha ihb => exact .binary iha ihb ⟨rfl, rfl, rfl⟩
  | eq _ _ iha ihb => exact .binary iha ihb ⟨rfl, rfl⟩
  | member _ _ iha ihb => exact .binary iha ihb ⟨rfl, rfl⟩
  | subset _ _ iha ihb => exact .binary iha ihb ⟨rfl, rfl, rfl⟩
  | setOperation hop _ _ iha ihb =>
    simp only [List.mem_cons, List.not_mem_nil, or_false] at hop
    rcases hop with rfl | rfl | rfl <;> exact .binary iha ihb ⟨rfl, rfl, rfl⟩
  | join _ _ hne iha ihb => exact .binary iha ihb ⟨_, _, _, hne, rfl, rfl, rfl⟩
  | product _ _ hne iha ihb => exact .binary iha ihb ⟨_, _, hne, rfl, rfl, rfl⟩
  | comparison hop _ _ iha ihb =>
    simp only [List.mem_cons, List.not_mem_nil, or_false] at hop
    rcases hop with rfl | rfl | rfl | rfl <;> exact .binary iha ihb ⟨rfl, rfl, rfl⟩
  | select _ hc ih => exact .select ih hc
  | connective hop _ _ ih =>
    have hrule := sorted_zip_replicate ih
    simp only [List.mem_cons, List.not_mem_nil, or_false] at hop
    rcases hop with rfl | rfl <;>
      exact .nary (by simp) hrule ⟨fun _ => List.eq_of_mem_replicate, rfl⟩
  | @distinct args sort _ _ ih =>
    exact .nary (by simp) (sorted_zip_replicate ih)
      ⟨⟨sort, fun _ => List.eq_of_mem_replicate⟩, rfl⟩
  | @tuple args cs hne hlen _ ih =>
    have hcs : cs ≠ [] := by
      rw [← List.length_pos_iff, ← hlen]
      exact List.length_pos_iff.mpr hne
    exact .nary hlen ih ⟨hcs, rfl⟩
  | @insert elements set e _ _ _ ihs ih =>
    have hzip : ∀ x ∈ (elements ++ [set]).zip (List.replicate elements.length e ++ [.set e]),
        x.1.Sorted s x.2 := by
      rw [List.zip_append (by simp), List.forall_mem_append]
      exact ⟨sorted_zip_replicate ihs, List.forall_mem_singleton.mpr ih⟩
    exact .nary (by simp) hzip ⟨_, e, rfl, fun _ => List.eq_of_mem_replicate, rfl⟩
  | quantified _ hvars _ ih => exact .quantified hvars ih
  | ite _ _ _ ihc iha ihb => exact .ite ihc iha ihb
  | call hf hd htakes _ hlen _ ih => exact .call hf hd htakes hlen ih

theorem HasSort.sortOf (h : a.HasSort s sort) : s.sortOf a = .ok sort := h.sorted.sortOf

/-! ## Terms built by rule -/

section Build

variable {ts : List Term}

theorem hasSort_conj (h : ∀ t ∈ ts, t.HasSort s .bool) : (conj ts).HasSort s .bool := by
  unfold conj
  split
  · exact .bool
  · exact h _ (List.mem_singleton.mpr rfl)
  · rename_i hnil _
    exact .connective (by simp) hnil h

theorem hasSort_disj (h : ∀ t ∈ ts, t.HasSort s .bool) : (disj ts).HasSort s .bool := by
  unfold disj
  split
  · exact .bool
  · exact h _ (List.mem_singleton.mpr rfl)
  · rename_i hnil _
    exact .connective (by simp) hnil h

theorem hasSort_and (ha : a.HasSort s .bool) (hb : b.HasSort s .bool) :
    (Term.and a b).HasSort s .bool :=
  .connective (by simp) (by simp) (by simp [ha, hb])

/-- A tuple whose elements have the sorts of its columns, one by one. -/
theorem hasSort_tuple {cs : List TermSort} (hcs : cs ≠ [])
    (h : List.Forall₂ (HasSort s) ts cs) : (Term.nary .tuple ts).HasSort s (.tuple cs) := by
  rw [List.forall₂_iff_zip] at h
  refine .tuple (fun hts => hcs ?_) h.1 fun x hx => h.2 hx
  rw [hts] at h
  exact List.length_eq_zero_iff.mp h.1.symm

theorem hasSort_foldl_union {e : TermSort} (ha : a.HasSort s (.set e))
    (h : ∀ t ∈ ts, t.HasSort s (.set e)) : (ts.foldl union a).HasSort s (.set e) := by
  induction ts generalizing a with
  | nil => exact ha
  | cons t ts ih =>
    rw [List.forall_mem_cons] at h
    exact ih (.setOperation (by simp) ha h.1) h.2

end Build

end Term

end TupleLogic
