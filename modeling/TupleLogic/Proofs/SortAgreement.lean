import TupleLogic.Proofs.Normalization
import TupleLogic.Proofs.OperatorSorts

/-! Inferred sorts are sound. Where all sorts that are written down have no sets of
sets and no tuples without columns, none is inferred that has. Together with the rules
of the operators this is all that is asked of inference: what is sorted by the rules
gets its sort, and no other term gets a sort that could not be written down. -/

namespace TupleLogic

namespace TermSort

variable {declared : String → Bool} {l r sort : TermSort} {cs : List TermSort}

theorem known_mkTuple (hcs : ∀ c ∈ cs, c.known declared = true) (h : mkTuple cs = .ok sort) :
    sort.known declared = true := by
  obtain ⟨hne, rfl⟩ := mkTuple_eq_ok.mp h
  rw [known, knownAll_iff.mpr hcs, Bool.and_true]
  simpa using hne

theorem known_mkSet (hl : l.known declared = true) (h : mkSet l = .ok sort) :
    sort.known declared = true := by
  obtain ⟨hset, rfl⟩ := mkSet_eq_ok.mp h
  rw [known, hset, hl]
  rfl

theorem known_mkRelation (hcs : ∀ c ∈ cs, c.known declared = true)
    (h : mkRelation cs = .ok sort) : sort.known declared = true := by
  obtain ⟨t, ht, hsort⟩ := bind_eq_ok.mp h
  exact known_mkSet (known_mkTuple hcs ht) hsort

/-- The columns of a known relation are known. -/
theorem known_columnsFor {op : RelationOp} (hl : l.known declared = true)
    (h : l.columnsFor op = .ok cs) : ∀ c ∈ cs, c.known declared = true := by
  unfold columnsFor at h
  split at h
  · cases h
    simp only [known, Bool.and_eq_true] at hl
    exact knownAll_iff.mp hl.2.2
  · cases h

theorem known_transposed (hl : l.known declared = true) (h : l.transposed = .ok sort) :
    sort.known declared = true := by
  obtain ⟨cs, hcs, hsort⟩ := bind_eq_ok.mp h
  refine known_mkRelation (fun c hc => ?_) hsort
  exact known_columnsFor hl hcs c (List.mem_reverse.mp hc)

theorem closed_eq_self (h : l.closed = .ok sort) : sort = l := by
  obtain ⟨cs, _, hsort⟩ := bind_eq_ok.mp h
  split at hsort
  · split at hsort
    · exact (pure_eq_ok.mp hsort).symm
    · cases hsort
  · cases hsort

theorem known_multiplied (hl : l.known declared = true) (hr : r.known declared = true)
    (h : l.multiplied r = .ok sort) : sort.known declared = true := by
  obtain ⟨cs, hcs, hrest⟩ := bind_eq_ok.mp h
  obtain ⟨ds, hds, hsort⟩ := bind_eq_ok.mp hrest
  refine known_mkRelation (List.forall_mem_append.mpr ⟨?_, ?_⟩) hsort
  · exact known_columnsFor hl hcs
  · exact known_columnsFor hr hds

theorem known_joined (hl : l.known declared = true) (hr : r.known declared = true)
    (h : l.joined r = .ok sort) : sort.known declared = true := by
  obtain ⟨cs, hcs, hrest⟩ := bind_eq_ok.mp h
  obtain ⟨ds, hds, hrest⟩ := bind_eq_ok.mp hrest
  obtain ⟨_, hsort⟩ := checked_eq_ok.mp hrest
  split at hsort
  · split at hsort
    · refine known_mkRelation (List.forall_mem_append.mpr ⟨fun c hc => ?_, fun c hc => ?_⟩) hsort
      · exact known_columnsFor hl hcs c (List.dropLast_subset _ hc)
      · exact known_columnsFor hr hds c (List.mem_of_mem_tail hc)
    · cases hsort
  · cases hsort

theorem known_selected {column : Int} (hl : l.known declared = true)
    (h : l.selected column = .ok sort) : sort.known declared = true := by
  unfold selected at h
  split at h
  · rename_i cs
    rw [known, Bool.and_eq_true] at hl
    split at h
    · rename_i c hc
      cases h
      split at hc
      · cases hc
      · exact knownAll_iff.mp hl.2 _ (List.mem_of_getElem? hc)
    · cases h
  · cases h

end TermSort

namespace Script

variable {s : Script} {declared : String → Bool}

theorem known_of_decl (hdecls : ∀ d ∈ s.arena, d.sort.known declared = true) {id : DeclId}
    {sort : TermSort} (h : (do return (← s.decl id).sort) = Except.ok sort) :
    sort.known declared = true := by
  obtain ⟨d, hd, hsort⟩ := bind_eq_ok.mp h
  obtain rfl := pure_eq_ok.mp hsort
  unfold decl at hd
  split at hd
  · rename_i hmem
    cases hd
    exact hdecls d (Array.mem_of_getElem? hmem)
  · cases hd

mutual
/-- Inference makes no sort from known ones that is not known. -/
theorem known_of_sortOf (hdecls : ∀ d ∈ s.arena, d.sort.known declared = true) :
    ∀ {t : Term} {sort : TermSort}, (∀ l ∈ t.literalSorts, l.known declared = true) →
      s.sortOf t = .ok sort → sort.known declared = true
  | .ref id, sort, _, h => by
    rw [sortOf] at h
    exact known_of_decl hdecls h
  | .int _, sort, _, h | .bool _, sort, _, h | .quantified _ _ _, sort, _, h => by
    rw [sortOf] at h
    cases h
    rfl
  | .emptySet l, sort, hl, h | .fullSet l, sort, hl, h => by
    rw [sortOf] at h
    split at h
    · cases h
      exact hl _ (List.mem_singleton.mpr rfl)
    · cases h
  | .unary op a, sort, hl, h => by
    rw [Term.literalSorts] at hl
    cases op with
    | not =>
      rw [sortOf] at h
      cases h
      rfl
    | singleton =>
      rw [sortOf] at h
      obtain ⟨l, ha, hsort⟩ := bind_eq_ok.mp h
      exact TermSort.known_mkSet (known_of_sortOf hdecls hl ha) hsort
    | transpose =>
      rw [sortOf] at h
      obtain ⟨l, ha, hsort⟩ := bind_eq_ok.mp h
      exact TermSort.known_transposed (known_of_sortOf hdecls hl ha) hsort
    | closure =>
      rw [sortOf] at h
      obtain ⟨l, ha, hsort⟩ := bind_eq_ok.mp h
      rw [TermSort.closed_eq_self hsort]
      exact known_of_sortOf hdecls hl ha
    | complement =>
      rw [sortOf] at h
      exact known_of_sortOf hdecls hl h
  | .binary op a b, sort, hl, h => by
    rw [Term.literalSorts, List.forall_mem_append] at hl
    cases op with
    | implies | eq | member | subset | lt | le | gt | ge =>
      rw [sortOf] at h
      cases h
      rfl
    | union | intersection | difference =>
      rw [sortOf] at h
      obtain ⟨l, ha, hrest⟩ := bind_eq_ok.mp h
      obtain ⟨r, _, hsort⟩ := bind_eq_ok.mp hrest
      split at hsort
      · obtain rfl := pure_eq_ok.mp hsort
        exact known_of_sortOf hdecls hl.1 ha
      · cases hsort
    | join =>
      rw [sortOf] at h
      obtain ⟨l, ha, hrest⟩ := bind_eq_ok.mp h
      obtain ⟨r, hb, hsort⟩ := bind_eq_ok.mp hrest
      exact TermSort.known_joined (known_of_sortOf hdecls hl.1 ha) (known_of_sortOf hdecls hl.2 hb)
        hsort
    | product =>
      rw [sortOf] at h
      obtain ⟨l, ha, hrest⟩ := bind_eq_ok.mp h
      obtain ⟨r, hb, hsort⟩ := bind_eq_ok.mp hrest
      exact TermSort.known_multiplied (known_of_sortOf hdecls hl.1 ha)
        (known_of_sortOf hdecls hl.2 hb) hsort
    | select =>
      unfold sortOf at h
      simp only at h
      split at h
      · obtain ⟨r, hb, hsort⟩ := bind_eq_ok.mp h
        exact TermSort.known_selected (known_of_sortOf hdecls hl.2 hb) hsort
      · cases h
  | .nary op args, sort, hl, h => by
    rw [Term.literalSorts] at hl
    cases op with
    | and | or | distinct =>
      rw [sortOf] at h
      cases h
      rfl
    | tuple =>
      rw [sortOf] at h
      obtain ⟨cs, hcs, hsort⟩ := bind_eq_ok.mp h
      exact TermSort.known_mkTuple (known_of_sortsOf hdecls hl hcs) hsort
    | insert =>
      rw [sortOf] at h
      exact known_of_sortOfLast hdecls hl h
  | .ite c a b, sort, hl, h => by
    rw [Term.literalSorts, List.forall_mem_append, List.forall_mem_append] at hl
    rw [sortOf] at h
    exact known_of_sortOf hdecls hl.1.2 h
  | .call f args, sort, _, h => by
    rw [sortOf] at h
    split at h
    · exact known_of_decl hdecls h
    · cases h

theorem known_of_sortsOf (hdecls : ∀ d ∈ s.arena, d.sort.known declared = true) :
    ∀ {ts : List Term} {sorts : List TermSort},
      (∀ l ∈ Term.literalSortsAll ts, l.known declared = true) → s.sortsOf ts = .ok sorts →
        ∀ c ∈ sorts, c.known declared = true
  | [], sorts, _, h => by
    rw [sortsOf] at h
    cases h
    exact List.forall_mem_nil _
  | t :: ts, sorts, hl, h => by
    rw [Term.literalSortsAll, List.forall_mem_append] at hl
    rw [sortsOf] at h
    obtain ⟨c, hc, hrest⟩ := bind_eq_ok.mp h
    obtain ⟨cs, hcs, hsorts⟩ := bind_eq_ok.mp hrest
    obtain rfl := pure_eq_ok.mp hsorts
    exact List.forall_mem_cons.mpr
      ⟨known_of_sortOf hdecls hl.1 hc, known_of_sortsOf hdecls hl.2 hcs⟩

theorem known_of_sortOfLast (hdecls : ∀ d ∈ s.arena, d.sort.known declared = true) :
    ∀ {ts : List Term} {sort : TermSort},
      (∀ l ∈ Term.literalSortsAll ts, l.known declared = true) → s.sortOfLast ts = .ok sort →
        sort.known declared = true
  | [], sort, _, h => by
    rw [sortOfLast] at h
    cases h
  | t :: ts, sort, hl, h => by
    rw [Term.literalSortsAll, List.forall_mem_append] at hl
    rw [sortOfLast] at h
    split at h
    · exact known_of_sortOf hdecls hl.1 h
    · exact known_of_sortOfLast hdecls hl.2 h
end

end Script

/-- A sort without sets of sets and without tuples that have no column, at any depth. -/
def TermSort.wellFormed (sort : TermSort) : Bool := sort.known fun _ => true

/-- Inference agrees with the rules of the operators where these apply, and never makes
a sort that is not well formed. -/
theorem Script.sortOf_agrees {s : Script} (hdecls : ∀ d ∈ s.arena, d.sort.wellFormed = true)
    (t : Term) (sort : TermSort) :
    (t.Sorted s sort → s.sortOf t = .ok sort) ∧
    ((∀ l ∈ t.literalSorts, l.wellFormed = true) → s.sortOf t = .ok sort →
      sort.wellFormed = true) :=
  ⟨Term.Sorted.sortOf, known_of_sortOf hdecls⟩

/-- An atom and a relation between atoms and numbers. -/
def Script.agesScript : Script where
  arena := #[.constant "a" .atom, .constant "age" (.set (.tuple [.atom, .int]))]
  constants := [⟨0⟩, ⟨1⟩]
  index := [("age", ⟨1⟩), ("a", ⟨0⟩)]

/-- The ages of the atom, as a conditional whose condition inference does not look at. -/
def Script.agesOf : Term :=
  .ite (.nary .and [])
    (.binary .join (.unary .singleton (.nary .tuple [.ref ⟨0⟩])) (.ref ⟨1⟩))
    (.emptySet (.set (.tuple [.int])))

theorem Script.sorted_agesOf : agesOf.Sorted agesScript (.set (.tuple [.int])) := by
  have hatom : (Term.ref ⟨0⟩).Sorted agesScript .atom := .ref (d := .constant "a" _) rfl rfl
  have hage : (Term.ref ⟨1⟩).Sorted agesScript (.set (.tuple [.atom, .int])) :=
    .ref (d := .constant "age" _) rfl rfl
  have hzip : ∀ x ∈ [Term.ref ⟨0⟩].zip [TermSort.atom], x.1.Sorted agesScript x.2 := by
    intro x hx
    rw [List.mem_singleton.mp hx]
    exact hatom
  have htuple : (Term.nary .tuple [.ref ⟨0⟩]).Sorted agesScript (.tuple [.atom]) :=
    .nary rfl hzip ⟨List.cons_ne_nil _ _, rfl⟩
  have hjoin : (Term.binary .join (.unary .singleton (.nary .tuple [.ref ⟨0⟩]))
      (.ref ⟨1⟩)).Sorted agesScript (.set (.tuple [.int])) :=
    .binary (.unary htuple ⟨rfl, rfl⟩) hage
      ⟨[], .atom, [.int], List.cons_ne_nil _ _, rfl, rfl, rfl⟩
  have hand : (Term.nary .and []).Sorted agesScript .bool :=
    .nary rfl (List.forall_mem_nil _) ⟨List.forall_mem_nil _, rfl⟩
  exact .ite hand hjoin .emptySet

theorem Script.sortOf_agrees_ages :
    (∀ d ∈ agesScript.arena, d.sort.wellFormed = true) ∧
    agesOf.Sorted agesScript (.set (.tuple [.int])) ∧
    agesScript.sortOf agesOf = .ok (.set (.tuple [.int])) ∧
    (TermSort.set (.tuple [.int])).wellFormed = true := by
  have hdecls : ∀ d ∈ agesScript.arena, d.sort.wellFormed = true := by
    intro d hd
    simp only [agesScript, Array.mem_def, List.mem_cons, List.not_mem_nil, or_false] at hd
    obtain rfl | rfl := hd <;> rfl
  obtain ⟨hsorted, hwell⟩ := sortOf_agrees hdecls agesOf (.set (.tuple [.int]))
  refine ⟨hdecls, sorted_agesOf, hsorted sorted_agesOf, hwell ?_ (hsorted sorted_agesOf)⟩
  intro l hl
  rw [List.mem_singleton.mp hl]
  rfl

end TupleLogic
