import TupleLogic.Script.Reader
import TupleLogic.Proofs.Growth

/-! Reported cardinalities. They are kept by sort and recorded one after the other
once all commands are read. That never fails, as only declared sorts are touched,
and gives each of them the count of the latest report about it. -/

namespace TupleLogic.Script

namespace Reader

/-! ## Counts by sort -/

/-- The counts that are kept of a list of reports, the latest of which come first. -/
def tally (reports : List (String × Nat)) : List (String × Nat) := reports.foldr insertCount []

theorem mem_insertCount {report r : String × Nat} {counts : List (String × Nat)}
    (h : r ∈ insertCount report counts) : r = report ∨ r ∈ counts := by
  induction counts with
  | nil => exact .inl (List.mem_singleton.mp h)
  | cons c counts ih =>
    rw [insertCount] at h
    split at h
    · exact List.mem_cons.mp h
    split at h
    · exact (List.mem_cons.mp h).imp_right (List.mem_cons_of_mem _)
    · obtain rfl | h := List.mem_cons.mp h
      · exact .inr List.mem_cons_self
      · exact (ih h).imp_right (List.mem_cons_of_mem _)

/-- Every sort is kept once. -/
theorem sorted_insertCount (report : String × Nat) {counts : List (String × Nat)}
    (h : counts.Pairwise fun a b => a.1 < b.1) :
    (insertCount report counts).Pairwise fun a b => a.1 < b.1 := by
  induction counts with
  | nil => exact List.pairwise_singleton _ _
  | cons c counts ih =>
    have hc := List.pairwise_cons.mp h
    rw [insertCount]
    split
    · rename_i hlt
      refine h.cons fun r hr => ?_
      obtain rfl | hr := List.mem_cons.mp hr
      · exact hlt
      · exact String.lt_trans hlt (hc.1 r hr)
    split
    · rename_i heq
      exact hc.2.cons fun r hr => heq ▸ hc.1 r hr
    · rename_i hnlt hne
      refine (ih hc.2).cons fun r hr => ?_
      obtain rfl | hr := mem_insertCount hr
      · exact Std.lt_of_le_of_ne (String.not_lt.mp hnlt) (Ne.symm hne)
      · exact hc.1 r hr

theorem sorted_tally (reports : List (String × Nat)) :
    (tally reports).Pairwise fun a b => a.1 < b.1 := by
  induction reports with
  | nil => exact .nil
  | cons r reports ih => exact sorted_insertCount r ih

theorem lookup_cons_eq_ite (sort : String) (r : String × Nat) (counts : List (String × Nat)) :
    (r :: counts).lookup sort = if sort = r.1 then some r.2 else counts.lookup sort := by
  obtain ⟨name, n⟩ := r
  rw [List.lookup_cons]
  by_cases h : sort = name
  · rw [if_pos h, beq_iff_eq.mpr h]
  · rw [if_neg h, beq_false_of_ne h]

theorem lookup_insertCount (report : String × Nat) (counts : List (String × Nat)) (sort : String) :
    (insertCount report counts).lookup sort = (report :: counts).lookup sort := by
  induction counts with
  | nil => rfl
  | cons c counts ih =>
    rw [insertCount]
    split
    · rfl
    split
    · rename_i heq
      simp only [lookup_cons_eq_ite, heq]
      split <;> rfl
    · rename_i hne
      simp only [lookup_cons_eq_ite, ih]
      -- the two counts that are skipped on the way to `sort` are of different sorts
      by_cases hc : sort = c.1
      · rw [if_pos hc, if_pos hc, if_neg (fun h => hne (h.symm.trans hc))]
      · rw [if_neg hc, if_neg hc]

/-- Of every sort the latest report is kept. -/
theorem lookup_tally (reports : List (String × Nat)) (sort : String) :
    (tally reports).lookup sort = reports.lookup sort := by
  induction reports with
  | nil => rfl
  | cons r reports ih =>
    rw [tally, List.foldr_cons, ← tally, lookup_insertCount, lookup_cons_eq_ite,
      lookup_cons_eq_ite, ih]

/-- Where each sort is kept once, it does not matter from which end it is looked up. -/
theorem lookup_reverse_of_sorted {counts : List (String × Nat)}
    (h : counts.Pairwise fun a b => a.1 < b.1) (sort : String) :
    counts.reverse.lookup sort = counts.lookup sort := by
  induction counts with
  | nil => rfl
  | cons c counts ih =>
    obtain ⟨hc, hcounts⟩ := List.pairwise_cons.mp h
    rw [List.reverse_cons, List.lookup_append, ih hcounts, lookup_cons_eq_ite, lookup_cons_eq_ite]
    split
    · rename_i hsort
      have hnone : counts.lookup sort = none := by
        rw [List.lookup_eq_none_iff]
        intro r hr
        exact bne_iff_ne.mpr (hsort ▸ String.ne_of_lt (hc r hr))
      rw [hnone, Option.none_or]
    · exact Option.or_none

/-! ## Recorded counts -/

/-- The script with the count that is found for each of its sorts. -/
def attach (counts : List (String × Nat)) (s : Script) : Script :=
  { s with sorts := s.sorts.map fun d =>
      match counts.lookup d.name with
      | some n => { d with cardinality := some n }
      | none => d }

/-- Without counts there is nothing to attach. -/
theorem attach_nil (s : Script) : attach [] s = s := by
  rw [attach]
  simp only [List.lookup_nil, List.map_id']

theorem attach_tally (reports : List (String × Nat)) (s : Script) :
    attach (tally reports).reverse s = attach reports s := by
  simp only [attach, lookup_reverse_of_sorted (sorted_tally reports), lookup_tally]

/-- The script with a count for one sort, if it is there. -/
def withCount (sort : String) (n : Nat) (s : Script) : Script :=
  { s with sorts := s.sorts.map fun d =>
      if d.name = sort then { d with cardinality := some n } else d }

theorem withCount_of_undeclared {s : Script} {sort : String} (h : s.sortDeclaration? sort = none)
    (n : Nat) : withCount sort n s = s := by
  have hsame : (s.sorts.map fun d =>
      if d.name = sort then { d with cardinality := some n } else d) = s.sorts.map id := by
    refine List.map_congr_left fun d hd => if_neg fun hname => ?_
    exact List.find?_eq_none.mp h d hd (decide_eq_true hname)
  rw [withCount, hsame, List.map_id]

/-- What is recorded first is found last. -/
theorem attach_concat (counts : List (String × Nat)) (sort : String) (n : Nat) (s : Script) :
    attach (counts ++ [(sort, n)]) s = attach counts (withCount sort n s) := by
  simp only [attach, withCount, List.map_map]
  congr 2
  funext d
  rw [Function.comp_apply, List.lookup_append, lookup_cons_eq_ite]
  by_cases hd : d.name = sort
  · rw [if_pos hd, if_pos hd]
    cases counts.lookup d.name <;> rfl
  · rw [if_neg hd, if_neg hd]
    cases counts.lookup d.name <;> rfl

/-- A count is recorded for a sort that is declared, so it is never refused. -/
theorem run_recordCounts_cons (sort : String) (n : Nat) (counts : List (String × Nat))
    (s : Script) :
    (recordCounts ((sort, n) :: counts)).run s = (recordCounts counts).run (withCount sort n s) := by
  cases hd : s.sortDeclaration? sort with
  | none =>
    rw [withCount_of_undeclared hd]
    simp [recordCounts, hd]
  | some d =>
    have hset : (s.setCardinality sort n).mapError ReadError.unrecorded =
        pure (withCount sort n s) := by
      rw [setCardinality_eq_ok.mpr ⟨by simp [hd], rfl⟩]
      rfl
    simp [recordCounts, hd, hset]

theorem recordCounts_eq (counts : List (String × Nat)) (s : Script) :
    (recordCounts counts).run s = .ok ((), attach counts.reverse s) := by
  induction counts generalizing s with
  | nil =>
    rw [List.reverse_nil, attach_nil]
    rfl
  | cons c counts ih => rw [run_recordCounts_cons, ih, List.reverse_cons, attach_concat]

end Reader

/-- A list of s-expressions is refused for its commands only. -/
theorem ofSExprs_eq_attach (dialect : Dialect) (items : List SExpr) : ofSExprs dialect items = do
    let (counts, s) ← (Reader.readCommands dialect none [] (Reader.unwrap items)).run empty
    return Reader.attach counts.reverse s := by
  simp only [ofSExprs, Reader.recordCounts_eq]
  rfl

end TupleLogic.Script
