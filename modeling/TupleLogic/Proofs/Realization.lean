import Mathlib.Tactic.IntervalCases
import TupleLogic.Proofs.ModelEncoding

/-! A structure for an instance. Its elements are the atoms, and the tuples of
integers that the integer sorts stand for; every relation of the vocabulary is
the relation of the instance that it stands for. Different relations have
different positions, so no two of them get in each other's way. -/

namespace TupleLogic.Encoding

open Relational Encoder

variable {α : Type} {m : Model} {v : Vocabulary} {p : Progress} {f : Script} {I : Instance α}
  {V : Set (List Int)}

/-- The built-in relation that the declaration stands for. -/
def StandsBuiltin (v : Vocabulary) (d : DeclId) (r : Relation α) : Prop :=
  (d = v.univRelation ∧ r = .ofAtoms Set.univ) ∨ (d = v.noneRelation ∧ r = ∅) ∨
    (d = v.idenRelation ∧ r = .diagonal)

/-- The relation of the instance that the declaration stands for. -/
def Stands (v : Vocabulary) (I : Instance α) (d : DeclId) (r : Relation α) : Prop :=
  StandsBuiltin v d r ∨ (∃ id : SigId, v.signatures[id.index]? = some d ∧ r = .ofAtoms (I.sig id)) ∨
    ∃ id : FieldId, v.field? id = some d ∧ r = I.field id

def standsFor (v : Vocabulary) (I : Instance α) (d : DeclId) : Relation α :=
  {t | ∃ r, Stands v I d r ∧ t ∈ r}

/-- The structure of an instance; the tuples of integers in `V` are the
elements of the integer sorts. -/
def realize (v : Vocabulary) (I : Instance α) (V : Set (List Int)) :
    Structure (α ⊕ List Int) where
  carrier n := if n = "Atom" then Set.range Sum.inl else
    Sum.inr '' {ns | ns ∈ V ∧ ∃ w ∈ intSorts, w.sort = n ∧ ns.length = w.width}
  meaning d args := match args with
    | [.datum (.elem (.inr ns))] => .datum (intTuple ns)
    | _ => relationValue Sum.inl (standsFor v I d)

theorem realize_atoms : (realize v I V).carrier "Atom" = Set.range Sum.inl := by
  simp only [realize, if_true]

theorem nodup_sortNames : (intSorts.map IntSort.sort).Nodup := by decide

theorem mem_realize_intSort {w : IntSort} (hw : w ∈ intSorts) {u : α ⊕ List Int} :
    u ∈ (realize v I V).carrier w.sort ↔ ∃ ns ∈ V, ns.length = w.width ∧ u = .inr ns := by
  have hne : w.sort ≠ "Atom" := by
    simp only [intSorts, List.mem_cons, List.not_mem_nil, or_false] at hw
    rcases hw with rfl | rfl | rfl <;> decide
  change u ∈ (if w.sort = "Atom" then _ else _) ↔ _
  rw [if_neg hne]
  constructor
  · rintro ⟨ns, ⟨hns, w', hw', hsort, hlen⟩, rfl⟩
    rw [List.inj_on_of_nodup_map nodup_sortNames hw' hw hsort] at hlen
    exact ⟨ns, hns, hlen, rfl⟩
  · rintro ⟨ns, hns, hlen, rfl⟩
    exact ⟨ns, ⟨hns, w, hw, rfl, hlen⟩, rfl⟩

/-! ## Positions of the vocabulary -/

section Positions

variable (h : DeclaresVocabulary m v p)

theorem Vocabulary.mem_flatten {id : FieldId} {d : DeclId} (hd : v.field? id = some d) :
    d ∈ v.fields.flatten := by
  obtain ⟨ds, hds, hd⟩ := Option.bind_eq_some_iff.mp hd
  exact List.mem_flatten.mpr ⟨ds, List.mem_of_getElem? hds, List.mem_of_getElem? hd⟩

/-- Entries of a table whose entries all differ are at different places. -/
theorem getElem?_flatten_inj {β : Type} {rows : List (List β)} (hnodup : rows.flatten.Nodup)
    {i j i' j' : Nat} {row row' : List β} {x : β} (hrow : rows[i]? = some row)
    (hx : row[j]? = some x) (hrow' : rows[i']? = some row') (hx' : row'[j']? = some x) :
    i = i' ∧ j = j' := by
  obtain ⟨hrows, hdisjoint⟩ := List.nodup_flatten.mp hnodup
  have hi : i = i' := by
    by_contra hne
    have hlt := (List.getElem?_eq_some_iff.mp hrow).1
    have hlt' := (List.getElem?_eq_some_iff.mp hrow').1
    have hd := List.pairwise_iff_getElem.mp hdisjoint
    have hmem := List.mem_of_getElem? hx
    have hmem' := List.mem_of_getElem? hx'
    rw [List.getElem?_eq_getElem hlt, Option.some.injEq] at hrow
    rw [List.getElem?_eq_getElem hlt', Option.some.injEq] at hrow'
    subst hrow hrow'
    rcases Nat.lt_or_gt_of_ne hne with hii | hii
    · exact hd i i' hlt hlt' hii hmem hmem'
    · exact hd i' i hlt' hlt hii hmem' hmem
  subst hi
  rw [hrow, Option.some.injEq] at hrow'
  subst hrow'
  have hlt := (List.getElem?_eq_some_iff.mp hx).1
  exact ⟨rfl, (List.getElem?_inj hlt (hrows row (List.mem_of_getElem? hrow))).mp
    (hx.trans hx'.symm)⟩

include h

theorem DeclaresVocabulary.nodup : (v.signatures ++ v.fields.flatten).Nodup := by
  rw [h.positions]
  exact nodup_positions _ _

theorem DeclaresVocabulary.index_ge {d : DeclId} (hd : d ∈ v.signatures ++ v.fields.flatten) :
    8 ≤ d.index := by
  rw [h.positions] at hd
  exact (mem_positions.mp hd).1

theorem DeclaresVocabulary.sig_inj {id id' : SigId} {d : DeclId}
    (hd : v.signatures[id.index]? = some d) (hd' : v.signatures[id'.index]? = some d) :
    id = id' := by
  have hnodup := (List.nodup_append.mp h.nodup).1
  have hlt := (List.getElem?_eq_some_iff.mp hd).1
  have := (List.getElem?_inj hlt hnodup).mp (hd.trans hd'.symm)
  cases id
  cases id'
  cases this
  rfl

theorem DeclaresVocabulary.field_inj {id id' : FieldId} {d : DeclId} (hd : v.field? id = some d)
    (hd' : v.field? id' = some d) : id = id' := by
  have hnodup := (List.nodup_append.mp h.nodup).2.1
  obtain ⟨row, hrow, hx⟩ := Option.bind_eq_some_iff.mp hd
  obtain ⟨row', hrow', hx'⟩ := Option.bind_eq_some_iff.mp hd'
  obtain ⟨hi, hj⟩ := getElem?_flatten_inj hnodup hrow hx hrow' hx'
  obtain ⟨⟨i⟩, j⟩ := id
  obtain ⟨⟨i'⟩, j'⟩ := id'
  cases hi
  cases hj
  rfl

theorem DeclaresVocabulary.sig_ne_field {sid : SigId} {fid : FieldId} {d : DeclId}
    (hd : v.signatures[sid.index]? = some d) (hd' : v.field? fid = some d) : False :=
  (List.nodup_append.mp h.nodup).2.2 d (List.mem_of_getElem? hd) d (Vocabulary.mem_flatten hd') rfl

theorem standsBuiltin_lt {d : DeclId} {r : Relation α} (hr : StandsBuiltin v d r) :
    d.index < 8 := by
  simp only [StandsBuiltin, h.univ, h.none, h.iden] at hr
  rcases hr with ⟨rfl, _⟩ | ⟨rfl, _⟩ | ⟨rfl, _⟩ <;> decide

theorem standsBuiltin_unique {d : DeclId} {r r' : Relation α} (hr : StandsBuiltin v d r)
    (hr' : StandsBuiltin v d r') : r = r' := by
  simp only [StandsBuiltin, h.univ, h.none, h.iden] at hr hr'
  rcases hr with ⟨rfl, rfl⟩ | ⟨rfl, rfl⟩ | ⟨rfl, rfl⟩ <;>
    simpa [eq_comm] using hr'

theorem stands_unique {d : DeclId} {r r' : Relation α} (hr : Stands v I d r)
    (hr' : Stands v I d r') : r = r' := by
  have hsig : ∀ {id : SigId} {d : DeclId}, v.signatures[id.index]? = some d → ¬ d.index < 8 :=
    fun hd => Nat.not_lt.mpr (h.index_ge (List.mem_append_left _ (List.mem_of_getElem? hd)))
  have hfield : ∀ {id : FieldId} {d : DeclId}, v.field? id = some d → ¬ d.index < 8 :=
    fun hd => Nat.not_lt.mpr (h.index_ge (List.mem_append_right _ (Vocabulary.mem_flatten hd)))
  rcases hr with hr | ⟨id, hd, rfl⟩ | ⟨id, hd, rfl⟩
  · rcases hr' with hr' | ⟨id', hd', _⟩ | ⟨id', hd', _⟩
    · exact standsBuiltin_unique h hr hr'
    · exact absurd (standsBuiltin_lt h hr) (hsig hd')
    · exact absurd (standsBuiltin_lt h hr) (hfield hd')
  · rcases hr' with hr' | ⟨id', hd', rfl⟩ | ⟨id', hd', _⟩
    · exact absurd (standsBuiltin_lt h hr') (hsig hd)
    · rw [h.sig_inj hd hd']
    · exact (h.sig_ne_field hd hd').elim
  · rcases hr' with hr' | ⟨id', hd', _⟩ | ⟨id', hd', rfl⟩
    · exact absurd (standsBuiltin_lt h hr') (hfield hd)
    · exact (h.sig_ne_field hd' hd).elim
    · rw [h.field_inj hd hd']

theorem standsFor_eq {d : DeclId} {r : Relation α} (hr : Stands v I d r) :
    standsFor v I d = r := by
  ext t
  constructor
  · rintro ⟨r', hr', ht⟩
    rwa [stands_unique h hr hr']
  · exact fun ht => ⟨r, hr, ht⟩

theorem meaning_realize {d : DeclId} {r : Relation α} (hr : Stands v I d r) :
    (realize v I V).meaning d [] = relationValue Sum.inl r :=
  congrArg (relationValue Sum.inl) (standsFor_eq h hr)

end Positions

/-! ## The structure interprets the instance -/

section Realize

variable (h : DeclaresVocabulary m v p)
  (htyped : ∀ {id : FieldId} {fd : Field} {t : List (Cell α)}, m.field? id = some fd →
    t ∈ I.field id → t.map Cell.type = fieldTypes fd)

include h htyped

theorem interprets_realize : Interprets v f Sum.inl I (realize v I V) where
  injective := Sum.inl_injective
  atoms := realize_atoms
  sig hd := meaning_realize h (.inr (.inl ⟨_, hd, rfl⟩))
  field hd := meaning_realize h (.inr (.inr ⟨_, hd, rfl⟩))
  univ := meaning_realize h (.inl (.inl ⟨rfl, rfl⟩))
  none := meaning_realize h (.inl (.inr (.inl ⟨rfl, rfl⟩)))
  iden := meaning_realize h (.inl (.inr (.inr ⟨rfl, rfl⟩)))
  typed hfd := htyped (h.model ▸ hfd)
  values w hw d _ u hu := by
    obtain ⟨ns, _, hlen, rfl⟩ := (mem_realize_intSort hw).mp hu
    exact ⟨ns, hlen, rfl⟩

/-- Every declaration of the vocabulary's script stands for a relation of its
sort, gives the tuples of an integer sort, or is a variable. -/
theorem DeclaresVocabulary.cases {id : DeclId} {d : Declaration} (hid : id.index < p.script.arena.size)
    (hd : p.script.arena[id.index]? = some d) :
    (∃ name cs r, d = .function name [] (relationSort cs) ∧ Stands v I id r ∧
        ∀ t ∈ r, t.map Cell.type = cs) ∨
      (∃ w ∈ intSorts, d = .function w.value [.named w.sort] (.tuple (List.replicate w.width .int))) ∨
      ∃ name sort, d = .variable name sort := by
  have hatoms : ∀ s : Set α, ∀ t ∈ Relation.ofAtoms s, t.map Cell.type = [.atom] := by
    rintro s _ ⟨a, _, rfl⟩
    rfl
  -- eight declarations open every script, and the relations of the model come after them
  by_cases hlt : id.index < 8
  · have hget : builtinScript.arena[id.index]? = some (builtinScript.arena[id.index]) :=
      Array.getElem?_eq_getElem hlt
    have hd' := h.builtin.decl hget
    rw [hd, Option.some.injEq] at hd'
    obtain ⟨i⟩ := id
    interval_cases i
    · exact .inr (.inl ⟨unaryInts, by simp [intSorts], hd'⟩)
    · exact .inr (.inl ⟨binaryInts, by simp [intSorts], hd'⟩)
    · exact .inr (.inl ⟨ternaryInts, by simp [intSorts], hd'⟩)
    · exact .inl ⟨_, [.atom], _, hd', .inl (.inl ⟨h.univ.symm, rfl⟩), hatoms _⟩
    · exact .inl ⟨_, [.atom], _, hd', .inl (.inr (.inl ⟨h.none.symm, rfl⟩)),
        fun _ ht => ht.elim⟩
    · refine .inl ⟨_, [.atom, .atom], _, hd', .inl (.inr (.inr ⟨h.iden.symm, rfl⟩)), ?_⟩
      rintro _ ⟨a, rfl⟩
      rfl
    · exact .inr (.inr ⟨_, _, hd'⟩)
    · exact .inr (.inr ⟨_, _, hd'⟩)
  · have hmem : id ∈ v.signatures ++ v.fields.flatten := by
      rw [h.positions, mem_positions, ← h.size]
      exact ⟨Nat.not_lt.mp hlt, hid⟩
    left
    rcases List.mem_append.mp hmem with hmem | hmem
    · obtain ⟨i, hi⟩ := List.getElem?_of_mem hmem
      have hsig : v.signatures[(⟨i⟩ : SigId).index]? = some id := hi
      obtain ⟨g, _, hfun⟩ := h.declared.sig hsig
      have hd' := hfun.2
      rw [hd, Option.some.injEq] at hd'
      exact ⟨_, [.atom], _, hd', .inr (.inl ⟨⟨i⟩, hi, rfl⟩), hatoms _⟩
    · obtain ⟨ids, hids, hmem⟩ := List.mem_flatten.mp hmem
      obtain ⟨i, hi⟩ := List.getElem?_of_mem hids
      obtain ⟨j, hj⟩ := List.getElem?_of_mem hmem
      have hfield : v.field? ⟨⟨i⟩, j⟩ = some id := Option.bind_eq_some_iff.mpr ⟨ids, hi, hj⟩
      obtain ⟨g, fd, _, hfd, hfun⟩ := h.declared.field hfield
      have hd' := hfun.2
      rw [hd, Option.some.injEq] at hd'
      exact ⟨_, fieldTypes fd, _, hd', .inr (.inr ⟨_, hfield, rfl⟩),
        fun t ht => htyped (h.model ▸ hfd) ht⟩

theorem sorted_realize (hf : p.script.Extends f) :
    (realize v I V).SortedBelow f p.script.arena.size := by
  intro id d hid hd
  have hd' := hf.decl (Array.getElem?_eq_getElem hid)
  rw [hd, Option.some.injEq] at hd'
  rcases h.cases htyped hid (Array.getElem?_eq_getElem hid) with
    ⟨name, cs, r, hdecl, hr, htypes⟩ | ⟨w, hw, hdecl⟩ | ⟨name, sort, hdecl⟩
  · rw [hd', hdecl]
    intro args hargs
    cases hargs
    exact (hasSort_relation realize_atoms).mpr ⟨r, meaning_realize h hr, htypes⟩
  · rw [hd', hdecl]
    intro args hargs
    obtain ⟨a, as, ha, hnil, rfl⟩ := List.forall₂_cons_left_iff.mp hargs
    cases hnil
    obtain ⟨u, hu, rfl⟩ := hasSort_named.mp ha
    obtain ⟨ns, _, hlen, rfl⟩ := (mem_realize_intSort hw).mp hu
    exact hasSort_intTuple.mpr ⟨ns, hlen, rfl⟩
  · rw [hd', hdecl]
    trivial

end Realize

theorem intValues_realize {s : Script} (hv : Declared v s) (hf : s.Extends f) {w : IntSort}
    (hw : w ∈ intSorts) : intValues (realize v I V) f w = {ns | ns ∈ V ∧ ns.length = w.width} := by
  ext ns
  constructor
  · rintro ⟨d, _, u, hu, hm⟩
    obtain ⟨ns', hns', hlen, rfl⟩ := (mem_realize_intSort hw).mp hu
    have heq : (intTuple ns' : Datum (α ⊕ List Int)) = intTuple ns := TermValue.datum.inj hm
    rw [intTuple_injective heq] at hns' hlen
    exact ⟨hns', hlen⟩
  · rintro ⟨hns, hlen⟩
    obtain ⟨d, hd⟩ := hv.values w hw
    exact ⟨d, hf.lookup hd.1, .inr ns, (mem_realize_intSort hw).mpr ⟨ns, hns, hlen, rfl⟩, rfl⟩

/-- If all tuples of integers are elements, none is missing. -/
theorem onto_realize : Onto f (realize v I Set.univ) := by
  intro w hw d _ ns hns
  exact ⟨.inr ns, (mem_realize_intSort hw).mpr ⟨ns, trivial, hns, rfl⟩, rfl⟩

/-- The built-in assertions hold where the vocabulary is interpreted. -/
theorem Interprets.models_builtins {E : Type} {ι : α → E} {M : Structure E}
    (hM : Interprets v f ι I M) (h : DeclaresVocabulary m v p) (hf : p.script.Extends f) :
    M.Models f p.script.assertions := by
  have huniv := hM.univ
  have hnone := hM.none
  have hiden := hM.iden
  rw [h.univ] at huniv
  rw [h.none] at hnone
  rw [h.iden] at hiden
  rw [h.assertions, holds_builtins hM.injective hM.atoms (h.builtin.trans hf)]
  · exact ⟨hnone, huniv, hiden⟩
  · refine (hasSort_relation hM.atoms).mpr ⟨_, hiden, ?_⟩
    rintro _ ⟨a, rfl⟩
    rfl

end TupleLogic.Encoding
