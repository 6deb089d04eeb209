import TupleLogic.Proofs.Assertions

/-! What the assertions about signatures state: the hierarchy, abstractness,
disjointness and the marks on the number of atoms. -/

namespace TupleLogic.Encoding

open Relational Encoder

variable {v : Vocabulary} {p q : Progress} {int : Prop}

theorem singleAtom_injective {α : Type} : Function.Injective fun a : α => [Cell.atom a] := by
  intro a b h
  simpa using h

theorem ofAtoms_subset {α : Type} {s t : Set α} :
    Relation.ofAtoms s ⊆ .ofAtoms t ↔ s ⊆ t := Set.image_subset_image_iff singleAtom_injective

theorem ofAtoms_injective {α : Type} : Function.Injective (Relation.ofAtoms (α := α)) :=
  singleAtom_injective.image_injective

theorem ofAtoms_inter {α : Type} (s t : Set α) :
    Relation.ofAtoms s ∩ .ofAtoms t = .ofAtoms (s ∩ t) :=
  (Set.image_inter singleAtom_injective).symm

variable {id : SigId} {g : Signature}

/-- The relation of a signature is declared, and its value holds its atoms. -/
theorem Declared.sig_index_lt (hv : Declared v p.script) {d : DeclId}
    (hd : v.signatures[id.index]? = some d) : d.index < p.script.arena.size := by
  obtain ⟨_, _, h⟩ := hv.sig hd
  exact h.index_lt

theorem Declared.field_index_lt {fid : FieldId} (hv : Declared v p.script) {d : DeclId}
    (hd : v.field? fid = some d) : d.index < p.script.arena.size := by
  obtain ⟨_, _, _, _, h⟩ := hv.field hd
  exact h.index_lt

theorem states_within {parent : SigId} {d : DeclId} (hd : v.signatures[id.index]? = some d) :
    States v int (fun _ I => I.sig id ⊆ I.sig parent) (assertParent.within v g (.ref d) parent) := by
  intro p u q hv h
  simp only [assertParent.within, returns_bind, returns_sigRelation, returns_assertTerm] at h
  obtain ⟨_, _, hlabel, _, _, ⟨d', hd', rfl, rfl⟩, rfl⟩ := h
  obtain ⟨_, rfl⟩ := returns_sigLabel hlabel
  refine ⟨_, asserts_term (.refl _) ?_ ?_⟩
  · exact fun _ => ⟨hv.sig_index_lt hd, hv.sig_index_lt hd'⟩
  · intro f α E ι I M _ hM
    rw [Term.holds_subset, Term.eval_ref, Term.eval_ref, hM.sig hd, hM.sig hd',
      relationValue_subset hM.injective, ofAtoms_subset]

theorem states_assertParent : States v int (fun _ I => I.WithinParent id g) (assertParent v id g) := by
  intro p u q hv h
  obtain ⟨label, parent, marks, fields⟩ := g
  simp only [assertParent, returns_bind, returns_sigRelation] at h
  obtain ⟨_, _, ⟨d, hd, rfl, rfl⟩, h⟩ := h
  cases parent with
  | top =>
    rw [returns_assertTerm] at h
    subst h
    refine ⟨_, asserts_term (.refl _) ?_ ?_⟩
    · exact fun _ => ⟨hv.sig_index_lt hd, hv.univ.index_lt⟩
    · intro f α E ι I M _ hM
      rw [Term.holds_subset, Term.eval_ref, Term.eval_ref, hM.sig hd, hM.univ,
        relationValue_subset hM.injective, ofAtoms_subset]
      exact iff_true_intro (Set.subset_univ _)
  | extending parent => exact states_within hd _ _ _ hv h
  | subset parent =>
    simp only [Instance.WithinParent]
    dsimp only at h
    split at h
    · rename_i hexact
      simp only [returns_bind, returns_sigRelation, returns_assertTerm] at h
      obtain ⟨_, _, hlabel, _, _, ⟨d', hd', rfl, rfl⟩, rfl⟩ := h
      obtain ⟨_, rfl⟩ := returns_sigLabel hlabel
      simp only [hexact, if_true]
      refine ⟨_, asserts_term (.refl _) ?_ ?_⟩
      · exact fun _ => ⟨hv.sig_index_lt hd, hv.sig_index_lt hd'⟩
      · intro f α E ι I M _ hM
        rw [Term.holds_equals, Term.eval_ref, Term.eval_ref, hM.sig hd, hM.sig hd',
          (relationValue_injective hM.injective).eq_iff, ofAtoms_injective.eq_iff]
    · rename_i hexact
      simp only [hexact]
      exact states_within hd _ _ _ hv h

theorem returns_sigRelations {ids : List SigId} {ts : List Term}
    (h : Returns (ids.mapM v.sigRelation) p ts q) :
    List.Forall₂ (fun id t => ∃ d, v.signatures[id.index]? = some d ∧ t = .ref d) ids ts ∧
      q = p := by
  induction ids generalizing p ts with
  | nil =>
    obtain ⟨rfl, rfl⟩ := returns_mapM_nil.mp h
    exact ⟨.nil, rfl⟩
  | cons id ids ih =>
    obtain ⟨t, s, ts', ht, hts, rfl⟩ := returns_mapM_cons.mp h
    obtain ⟨d, hd, rfl, rfl⟩ := returns_sigRelation.mp ht
    obtain ⟨hall, rfl⟩ := ih hts
    exact ⟨.cons ⟨d, hd, rfl⟩ hall, rfl⟩

theorem below_unionAll {f : Script} {n : Nat} {ts : List Term} {t : Term}
    (h : Term.unionAll ts = .ok t) (hts : ∀ u ∈ ts, u.Below f n) : t.Below f n := by
  have hfold : ∀ (ts : List Term) (t : Term), t.Below f n → (∀ u ∈ ts, u.Below f n) →
      (ts.foldl Term.union t).Below f n := by
    intro ts
    induction ts with
    | nil => exact fun t ht _ => ht
    | cons u ts ih =>
      intro t ht hts
      rw [List.forall_mem_cons] at hts
      exact ih _ ⟨ht, hts.1⟩ hts.2
  cases ts with
  | nil => cases h
  | cons u ts =>
    cases h
    rw [List.forall_mem_cons] at hts
    exact hfold ts u hts.1 hts.2

/-- The union of the relations of signatures holds their atoms. -/
theorem eval_sigUnion {f : Script} {α E : Type} {ι : α → E} {I : Instance α} {M : Structure E}
    (hM : Interprets v f ι I M) {ids : List SigId} {ts : List Term} {t : Term}
    (hts : List.Forall₂ (fun id t => ∃ d, v.signatures[id.index]? = some d ∧ t = .ref d) ids ts)
    (h : Term.unionAll ts = .ok t) :
    t.eval f M = relationValue ι (.ofAtoms {a | ∃ c ∈ ids, a ∈ I.sig c}) := by
  have hvalue : List.Forall₂ (fun id u => u.eval f M = relationValue ι (.ofAtoms (I.sig id)))
      ids ts := by
    refine hts.imp fun id u hu => ?_
    obtain ⟨d, hd, rfl⟩ := hu
    exact hM.sig hd
  have hsets : ∀ u ∈ ts, u.eval f M = .set (u.eval f M).elements := by
    intro u hu
    obtain ⟨i, hi⟩ := List.getElem?_of_mem hu
    obtain ⟨id, _, hval⟩ := forall₂_getElem?_right hvalue hi
    rw [hval]
    rfl
  rw [Term.eval_unionAll h hsets]
  refine congrArg TermValue.set ?_
  ext x
  constructor
  · rintro ⟨u, hu, hx⟩
    obtain ⟨i, hi⟩ := List.getElem?_of_mem hu
    obtain ⟨id, hid, hval⟩ := forall₂_getElem?_right hvalue hi
    rw [hval] at hx
    obtain ⟨_, ⟨_, ⟨a, ha, rfl⟩, rfl⟩, rfl⟩ := hx
    exact ⟨_, ⟨_, ⟨a, ⟨id, List.mem_of_getElem? hid, ha⟩, rfl⟩, rfl⟩, rfl⟩
  · rintro ⟨_, ⟨_, ⟨a, ⟨id, hid, ha⟩, rfl⟩, rfl⟩, rfl⟩
    obtain ⟨i, hi⟩ := List.getElem?_of_mem hid
    obtain ⟨u, hu, hval⟩ := forall₂_getElem?_left hvalue hi
    refine ⟨u, List.mem_of_getElem? hu, ?_⟩
    rw [hval]
    exact ⟨_, ⟨_, ⟨a, ha, rfl⟩, rfl⟩, rfl⟩

/-- What an abstract signature says: it holds just the atoms of its extensions. -/
def abstractCondition (m : Model) (id : SigId) (g : Signature) : Condition := fun _ I =>
  g.has .abstract → m.children id ≠ [] → I.sig id = {a | ∃ c ∈ m.children id, a ∈ I.sig c}

theorem states_assertAbstract :
    States v int (abstractCondition v.model id g) (assertAbstract v id g) := by
  refine states_ite fun _ => ?_
  intro p u q hv h
  simp only [returns_bind, returns_sigRelation] at h
  obtain ⟨_, _, ⟨d, hd, rfl, rfl⟩, ts, _, hchildren, h⟩ := h
  obtain ⟨hts, rfl⟩ := returns_sigRelations hchildren
  have hlen := hts.length_eq
  split at h
  · rename_i hne
    simp only [returns_bind, returns_liftTerm, returns_assertTerm] at h
    obtain ⟨t, _, ⟨ht, rfl⟩, rfl⟩ := h
    refine ⟨_, asserts_term (.refl _) ?_ ?_⟩
    · refine fun _ => ⟨hv.sig_index_lt hd, below_unionAll ht fun u hu => ?_⟩
      obtain ⟨i, hi⟩ := List.getElem?_of_mem hu
      obtain ⟨c, _, d', hd', rfl⟩ := forall₂_getElem?_right hts hi
      exact hv.sig_index_lt hd'
    · intro f α E ι I M _ hM
      rw [Term.holds_equals, Term.eval_ref, hM.sig hd, eval_sigUnion hM hts ht,
        (relationValue_injective hM.injective).eq_iff, ofAtoms_injective.eq_iff]
      refine (imp_iff_right ?_).symm
      intro hnil
      rw [hnil] at hlen
      simp [List.length_eq_zero_iff.mp hlen.symm] at hne
  · rename_i hempty
    obtain ⟨_, rfl⟩ := returns_pure.mp h
    refine ⟨[], asserts_nothing fun _ _ hne => ?_⟩
    have hts : ts = [] := by simpa using hempty
    rw [hts] at hlen
    exact absurd (List.length_eq_zero_iff.mp hlen) hne

theorem states_assertMark {mark : Mark} (mult : Multiplicity) {op : Relational.UnaryOp}
    (hop : multiplicityOp? mult = some op) :
    States v int (fun _ I => g.has mark → mult.Allows (I.sig id)) (assertMark v id g mark op) := by
  have hcard := multiplicityOp?_ne_card hop
  refine states_ite fun _ => (states_assertFact ?_ ?_ ?_).congr fun α I => ?_
  · exact wellTyped_multiplicity hop (.sig id)
  · intro hi
    simp [InvolvesInt, Expr.usesInt, hcard] at hi
  · intro α I _ c hc
    simp [Expr.counted, hcard] at hc
  · rw [holds_multiplicity hop]
    exact allows_image singleAtom_injective mult

theorem states_assertDisjointPair {a b : SigId} :
    States v int (fun _ I => Disjoint (I.sig a) (I.sig b)) (assertDisjointPair v a b) := by
  intro p u q hv h
  simp only [assertDisjointPair, returns_bind, returns_sigRelation, returns_assertTerm] at h
  obtain ⟨_, _, hfirst, _, _, hsecond, _, _, ⟨d, hd, rfl, rfl⟩, _, _, ⟨d', hd', rfl, rfl⟩, rfl⟩ := h
  obtain ⟨_, rfl⟩ := returns_sigLabel hfirst
  obtain ⟨_, rfl⟩ := returns_sigLabel hsecond
  refine ⟨_, asserts_term (.refl _) ?_ ?_⟩
  · exact fun _ => ⟨⟨hv.sig_index_lt hd, hv.sig_index_lt hd'⟩, trivial⟩
  · intro f α E ι I M _ hM
    rw [Term.holds_equals, Term.eval_intersection, Term.eval_ref, Term.eval_ref, hM.sig hd,
      hM.sig hd', ← relationValue_inter hM.injective, Term.eval_emptySet, ← relationValue_empty,
      (relationValue_injective hM.injective).eq_iff, ofAtoms_inter, Set.disjoint_iff_inter_eq_empty]
    exact Set.image_eq_empty

theorem states_assertDisjoint (ids : List SigId) :
    States v int (fun _ I => ids.Pairwise fun a b => Disjoint (I.sig a) (I.sig b))
      (assertDisjoint v ids) := by
  induction ids with
  | nil => exact states_pure fun _ _ => .nil
  | cons a ids ih =>
    refine ((states_forM fun b _ => states_assertDisjointPair).seq ih).congr fun α I => ?_
    rw [List.pairwise_cons]

end TupleLogic.Encoding
