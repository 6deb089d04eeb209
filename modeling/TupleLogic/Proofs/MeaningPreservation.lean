import TupleLogic.Proofs.Realization

/-! Encoding preserves meaning. A formula that counts nothing is true in a
structure exactly where its encoding is. A model is satisfiable just as its
script is: every instance extends to a structure in which all assertions of
the script hold, and every structure with finitely many atoms in which they
hold restricts to an instance, provided that the elements of the integer sorts
reach all integers or that no integer is involved. -/

namespace TupleLogic.Encoding

open Relational Encoder

variable {α E : Type}

/-- The atoms and the relations of signatures and fields are those of the
instance. -/
structure Represents (M : Structure E) (s : Script) (m : Model) (ι : α → E) (I : Instance α) :
    Prop where
  injective : Function.Injective ι
  atoms : M.carrier "Atom" = Set.range ι
  sig : ∀ {id : SigId} {g : Signature}, m.signature? id = some g →
    ∃ d, s.lookup (relationName g.label) = some d ∧
      M.meaning d [] = relationValue ι (.ofAtoms (I.sig id))
  field : ∀ {id : FieldId} {g : Signature} {f : Field}, m.signature? id.sig = some g →
    m.field? id = some f →
    ∃ d, s.lookup (fieldName g f) = some d ∧ M.meaning d [] = relationValue ι (I.field id)

section Encoding

variable {m : Model} {v : Vocabulary} {p : Progress} {s : Script} {M : Structure E} {ι : α → E}
  {I : Instance α}

theorem Interprets.represents (hM : Interprets v s ι I M) (h : DeclaresVocabulary m v p)
    (hs : p.script.Extends s) : Represents M s m ι I where
  injective := hM.injective
  atoms := hM.atoms
  sig hg := by
    obtain ⟨d, hd, hlookup⟩ := h.signature_relation hg
    exact ⟨d, hs.lookup hlookup, hM.sig hd⟩
  field hg hf := by
    obtain ⟨d, hd, hlookup⟩ := h.field_relation hg hf
    exact ⟨d, hs.lookup hlookup, hM.field hd⟩

theorem encode_returns {names names' : NameSupply} (h : m.encode {} names = (.ok s, names')) :
    ∃ start u q, Returns (encodeModel true m) ⟨.empty, start⟩ u q ∧ q.script = s := by
  obtain ⟨u, hrun⟩ := returns_of_encode h
  exact ⟨_, u, _, hrun, rfl⟩

/-- A successful encoding declares a vocabulary and then asserts the model. -/
theorem encode_ok {names names' : NameSupply} (hm : m.WellTyped)
    (h : m.encode {} names = (.ok s, names')) :
    ∃ v start q new, DeclaresVocabulary m v start ∧ q.script = s ∧
      Asserts v m.InvolvesInt (fun _ I => I.Satisfies m) start q new := by
  obtain ⟨_, u, q, hrun, rfl⟩ := encode_returns h
  obtain ⟨v, start, new, hv, hnew⟩ := encodeModel_returns hm hrun
  exact ⟨v, start, q, new, hv, rfl, hnew⟩

/-- An instance of the model extends to a structure in which the assertions
of its encoding hold. -/
theorem Asserts.realization [Nonempty α] [Finite α] {q : Progress} {new : List Assertion}
    (h : DeclaresVocabulary m v p) (hnew : Asserts v m.InvolvesInt (fun _ I => I.Satisfies m) p q new)
    (hfin : ∀ id, (I.field id).Finite) (hfits : I.FactsFit m) (hI : I.Satisfies m) :
    ∃ M : Structure (α ⊕ List Int), Interprets v q.script Sum.inl I M ∧ Onto q.script M ∧
      M.Sorted q.script ∧ M.Models q.script q.script.assertions := by
  have hpq := hnew.extension
  have hM : Interprets v q.script Sum.inl I (realize v I Set.univ) :=
    interprets_realize h fun hf ht => hI.typed hf ht
  obtain ⟨N, hMN, hsorted, hmodels⟩ := hnew.complete (.refl _) hM hfin (fun _ => onto_realize)
    (sorted_realize h (fun hf ht => hI.typed hf ht) hpq) (h.model ▸ hfits) hI
  have hN := hM.agrees h.declared hpq hMN
  refine ⟨N, hN, onto_realize.agrees h.declared hpq hMN, hsorted, ?_⟩
  rw [hnew.assertions, Structure.models_append]
  exact ⟨hN.models_builtins h hpq, hmodels⟩

/-- A structure in which the assertions hold restricts to an instance of the
model. -/
theorem Asserts.restriction {q : Progress} {new : List Assertion}
    (h : DeclaresVocabulary m v p) (hnew : Asserts v m.InvolvesInt (fun _ I => I.Satisfies m) p q new)
    (hsorted : M.Sorted q.script) (hfinite : (M.carrier "Atom").Finite)
    (hne : (M.carrier "Atom").Nonempty)
    (hfields : ∀ id, ((instanceOf M q.script m).field id).Finite)
    (honto : m.InvolvesInt → Onto q.script M) (hmodels : M.Models q.script q.script.assertions) :
    Interprets v q.script Subtype.val (instanceOf M q.script m) M ∧
      (instanceOf M q.script m).Satisfies m := by
  have : Finite (M.carrier "Atom") := hfinite
  have : Nonempty (M.carrier "Atom") := hne.to_subtype
  rw [hnew.assertions, Structure.models_append] at hmodels
  have hM := interprets_of_builtins h hnew.extension hsorted hmodels.1
  exact ⟨hM, hnew.sound (.refl _) hM hfields honto hsorted hmodels.2⟩

theorem finite_instanceOf (h : DeclaresVocabulary m v p) (hs : p.script.Extends s)
    (hsorted : M.Sorted s) (hbuiltin : M.Models s p.script.assertions)
    (hfinite : (M.carrier "Atom").Finite) (hm : ¬ m.InvolvesInt) (id : FieldId) :
    ((instanceOf M s m).field id).Finite := by
  have : Finite (M.carrier "Atom") := hfinite
  have htyped : (instanceOf M s m).Typed m := by
    intro id f t hf ht
    exact (interprets_of_builtins h hs hsorted hbuiltin).typed (h.model ▸ hf) ht
  cases hf : m.field? id with
  | some f => exact htyped.finite hf (Bool.eq_false_iff.mpr fun hi => hm (.inl ⟨id, f, hf, hi⟩))
  | none =>
    convert Set.finite_empty
    refine Set.eq_empty_iff_forall_notMem.mpr ?_
    rintro t ⟨g, f, d, _, hf', _⟩
    rw [hf] at hf'
    cases hf'

end Encoding

/-! ## Formulas -/

/-- The encoding of a formula that counts nothing, with what it owes bound
around it, is true in a structure exactly where the formula holds in the
instance that the structure has. -/
theorem close_holds_iff_holds {m : Model} {names : NameSupply} {v : Vocabulary}
    {start p q : Progress} {scope : Scope} {pos : Position} {e : Expr} {r : Encoded}
    (hvocabulary : Returns (declareVocabulary m) ⟨.empty, names⟩ v start)
    (hstart : start.script.Extends p.script) (hscope : ScopeIn p.script scope)
    (he : WellTyped m e) (hcounts : e.counts = false) (h : Returns (encode v e scope pos) p r q)
    {f : Script} (hf : q.script.Extends f) {E : Type} {M : Structure E} (hM : M.Sorted f)
    (hne : (M.carrier "Atom").Nonempty)
    (hbuiltin : M.Models f start.script.assertions)
    (honto : InvolvesInt m e → Onto f M) {env : Env (M.carrier "Atom")}
    (henv : Matches Subtype.val M scope env) :
    ∃ t, r.close = .ok t ∧ (t.Holds f M ↔ (instanceOf M f m).Holds e env) := by
  have hv := declareVocabulary_returns hvocabulary
  have hm := hv.model
  have hdeclared := hv.declared.extend hstart
  rw [encode_position pos e hcounts] at h
  have hr := encode_meaning (hm ▸ he) scope p r q hdeclared hscope h
  have hpf := hr.grows.extension.trans hf
  have hM' : Interprets v f Subtype.val (instanceOf M f m) M :=
    interprets_of_builtins hv (hstart.trans hpf) hM hbuiltin
  refine ⟨_, Encoded.close_eq (hr.chain hf), ?_⟩
  have : Nonempty (M.carrier "Atom") := hne.to_subtype
  rw [Encoded.close_holds (hr.chain hf) (Encoded.close_eq (hr.chain hf))]
  exact hr.truth hf hM' henv (hm ▸ honto)

/-- People, each with any number of ages. -/
def agesModel : Model where
  signatures := [⟨"Person", .top, [], [⟨"age", [.int], .set⟩]⟩]

/-- No person's age is below zero. -/
def agesFormula : Expr :=
  .quantified .no [⟨["x"], .sig ⟨0⟩⟩]
    (.binary .lt (.binary .join (.var "x") (.field ⟨⟨0⟩, 0⟩)) (.int 0))

/-- One person, whose age is minus one. -/
def agesInstance : Instance Unit where
  sig _ := Set.univ
  field _ := {[.atom (), .int (-1)]}

theorem wellTyped_agesFormula : WellTyped agesModel agesFormula := by
  have hage : HasColumns agesModel (.field ⟨⟨0⟩, 0⟩) [.atom, .int] :=
    .field (f := ⟨"age", [.int], .set⟩) rfl
  have hjoin : HasColumns agesModel (.binary .join (.var "x") (.field ⟨⟨0⟩, 0⟩)) ([] ++ [.int]) :=
    .join (.var "x") hage (by simp)
  refine .quantified ?_ (by simp) (.numbers (by simp) hjoin (.int (by decide)))
  exact List.forall_mem_singleton.mpr (.sig ⟨0⟩)

theorem close_holds_iff_holds_ages : ∃ v start r q t, ∃ M : Structure (Unit ⊕ List Int),
    Returns (declareVocabulary agesModel) ⟨.empty, {}⟩ v start ∧
    Returns (encode v agesFormula [] .nested) start r q ∧ M.Sorted q.script ∧
    (M.carrier "Atom").Nonempty ∧ M.Models q.script start.script.assertions ∧ Onto q.script M ∧
    r.close = .ok t ∧
    (t.Holds q.script M ↔ (instanceOf M q.script agesModel).Holds agesFormula []) := by
  have hrun : ((declareVocabulary agesModel >>= fun v =>
      encode v agesFormula [] .nested).run.run ⟨.empty, {}⟩).1.isOk = true := by decide +kernel
  obtain ⟨r, q, hrun⟩ := returns_of_isOk hrun
  obtain ⟨v, start, hvocabulary, hr⟩ := returns_bind.mp hrun
  have hv := declareVocabulary_returns hvocabulary
  have htyped : ∀ {id fd t}, agesModel.field? id = some fd → t ∈ agesInstance.field id →
      t.map Cell.type = fieldTypes fd := by
    rintro ⟨⟨_ | i⟩, _ | j⟩ fd t hfd rfl
    · cases hfd
      rfl
    all_goals cases hfd
  have hgrows := (encode_meaning (hv.model ▸ wellTyped_agesFormula) [] start r q hv.declared
    (scopeIn_nil _) hr).grows
  have hM : Interprets v q.script Sum.inl agesInstance (realize v agesInstance Set.univ) :=
    interprets_realize hv htyped
  have hsorted : (realize v agesInstance Set.univ).Sorted q.script :=
    (sorted_realize hv htyped hgrows.extension).addsVariables hgrows (.refl _)
  have hne : ((realize v agesInstance Set.univ).carrier "Atom").Nonempty := by
    rw [realize_atoms]
    exact Set.range_nonempty _
  have hbuiltin := hM.models_builtins hv hgrows.extension
  obtain ⟨t, ht, hiff⟩ := close_holds_iff_holds hvocabulary (.refl _) (scopeIn_nil _)
    wellTyped_agesFormula rfl hr (.refl _) hsorted hne hbuiltin (fun _ => onto_realize) .nil
  exact ⟨v, start, r, q, t, _, hvocabulary, hr, hsorted, hne, hbuiltin, onto_realize, ht, hiff⟩

/-! ## Models -/

/-- Instances of a model extend to structures of its script; and structures
with finitely many atoms restrict to instances, if no integers are involved. -/
theorem encode_equisatisfiable {m : Model} {names names' : NameSupply} {s : Script}
    (hm : m.WellTyped) (h : m.encode {} names = (.ok s, names')) :
    (∀ {α : Type} [Nonempty α] [Finite α] (I : Instance α), (∀ id, (I.field id).Finite) →
      I.FactsFit m → I.Satisfies m →
      ∃ (E : Type) (ι : α → E) (M : Structure E), Represents M s m ι I ∧ M.Sorted s ∧
        (∀ w ∈ intSorts, (M.carrier w.sort).Nonempty) ∧ M.Models s s.assertions) ∧
    (¬ m.InvolvesInt → ∀ {E : Type} (M : Structure E), M.Sorted s → (M.carrier "Atom").Finite →
      (M.carrier "Atom").Nonempty → M.Models s s.assertions →
      ∃ I : Instance (M.carrier "Atom"), Represents M s m Subtype.val I ∧
        (∀ id, (I.field id).Finite) ∧ I.Satisfies m) := by
  obtain ⟨v, start, q, new, hv, rfl, hnew⟩ := encode_ok hm h
  constructor
  · intro α _ _ I hfin hfits hI
    obtain ⟨M, hM, honto, hsorted, hmodels⟩ := hnew.realization hv hfin hfits hI
    refine ⟨_, Sum.inl, M, hM.represents hv hnew.extension, hsorted, fun w hw => ?_, hmodels⟩
    obtain ⟨d, hd⟩ := hv.declared.values w hw
    obtain ⟨u, hu, _⟩ := honto w hw d (hnew.extension.lookup hd.1)
      (List.replicate w.width 0) List.length_replicate
    exact ⟨u, hu⟩
  · intro hint E M hsorted hfinite hne hmodels
    have hbuiltin := hmodels
    rw [hnew.assertions, Structure.models_append] at hbuiltin
    have hfields := finite_instanceOf hv hnew.extension hsorted hbuiltin.1 hfinite hint
    obtain ⟨hM, hI⟩ := hnew.restriction hv hsorted hfinite hne hfields (fun hi => (hint hi).elim)
      hmodels
    exact ⟨_, hM.represents hv hnew.extension, hfields, hI⟩

/-- An abstract signature of two atoms, all of them in the one signature that
extends it, each with a next one. -/
def pairModel : Model where
  signatures := [⟨"A", .top, [.abstract], []⟩,
    ⟨"B", .extending ⟨0⟩, [.some], [⟨"next", [.sig ⟨1⟩], .one⟩]⟩]
  facts := [⟨"two", .binary .equals (.unary .card (.sig ⟨0⟩)) (.int 2)⟩]

/-- Two atoms, each with the other one next. -/
def pairInstance : Instance Bool where
  sig _ := Set.univ
  field id := {t | id = ⟨⟨1⟩, 0⟩ ∧ ∃ a, [.atom a, .atom !a] = t}

theorem wellTyped_pairModel : pairModel.WellTyped := by
  refine List.forall_mem_singleton.mpr (.relations (by simp) (.card (.sig ⟨0⟩)) ?_)
  exact .int (by decide)

theorem ncard_atoms_pairInstance : (pairInstance.denote [] (.sig ⟨0⟩)).ncard = 2 := by
  refine (Set.ncard_image_of_injective _ singleAtom_injective).trans ?_
  exact Set.ncard_univ Bool |>.trans (Nat.card_eq_fintype_card.trans rfl)

theorem satisfies_pairInstance : pairInstance.Satisfies pairModel where
  parents {id g} _ := by
    unfold Instance.WithinParent
    split
    · trivial
    · exact Set.Subset.rfl
    · split
      · rfl
      · exact Set.Subset.rfl
  abstract _ _ := fun ⟨c, hc⟩ a _ => ⟨c, hc, trivial⟩
  disjoint := by
    rintro ⟨_ | _ | i⟩ ⟨_ | _ | j⟩ ⟨hne, g, h, hg, hh, hparent, _⟩ <;> cases hg <;> cases hh
    · exact absurd rfl hne
    · cases hparent
    · cases hparent
    · exact absurd rfl hne
  marks {id g} hg mark hmark hhas := by
    have hsome : mark = (.some, .some) := by
      have hall : ∀ g ∈ pairModel.signatures, ∀ mark ∈ markMultiplicities,
          g.has mark.1 → mark = (.some, .some) := by decide
      exact hall g (List.mem_of_getElem? hg) mark hmark hhas
    subst hsome
    exact Set.univ_nonempty
  columns := by
    rintro _ f hf t ⟨rfl, a, rfl⟩
    cases hf
    exact ⟨a, trivial, [.atom !a], rfl, .cons trivial .nil⟩
  multiplicities := by
    rintro ⟨⟨_ | _ | i⟩, _ | j⟩ f hf a _ <;> cases hf
    refine ⟨[.atom !a], ?_⟩
    ext t
    constructor
    · rintro ⟨_, b, hb⟩
      cases hb
      rfl
    · rintro rfl
      exact ⟨rfl, a, rfl⟩
  facts := by
    refine List.forall_mem_singleton.mpr ?_
    change ({[.int _]} : Relation Bool) = {[.int 2]}
    rw [ncard_atoms_pairInstance]
    rfl

theorem fields_pairInstance_finite (id : FieldId) : (pairInstance.field id).Finite := by
  refine (Set.finite_range fun a : Bool => [Cell.atom a, .atom !a]).subset ?_
  rintro t ⟨_, ht⟩
  exact ht

/-- The pair has a structure in which its assertions hold, and that structure
restricts to a pair. -/
theorem encode_equisatisfiable_pair : ∃ s names E, ∃ M : Structure E,
    pairModel.encode {} {} = (.ok s, names) ∧ M.Models s s.assertions ∧
      ∃ I : Instance (M.carrier "Atom"), Represents M s pairModel Subtype.val I ∧
        I.Satisfies pairModel := by
  obtain ⟨s, names, hs⟩ := @encode_of_isOk pairModel {} (by decide +kernel)
  have hfits : pairInstance.FactsFit pairModel := by
    refine List.forall_mem_singleton.mpr (List.forall_mem_singleton.mpr ?_)
    rw [ncard_atoms_pairInstance]
    decide
  have hint : ¬ pairModel.InvolvesInt := by
    rintro (⟨id, f, hf, huses⟩ | ⟨fact, hfact, huses⟩)
    · obtain ⟨⟨_ | _ | i⟩, _ | j⟩ := id <;> cases hf
      cases huses
    · rw [List.mem_singleton.mp hfact] at huses
      cases huses
  have hequi := encode_equisatisfiable wellTyped_pairModel hs
  obtain ⟨E, ι, M, hM, hsorted, _, hmodels⟩ :=
    hequi.1 pairInstance fields_pairInstance_finite hfits satisfies_pairInstance
  obtain ⟨I, hI, _, hsat⟩ := hequi.2 hint M hsorted (hM.atoms ▸ Set.finite_range ι)
    (hM.atoms ▸ Set.range_nonempty ι) hmodels
  exact ⟨s, names, E, M, hs, hmodels, I, hI, hsat⟩

end TupleLogic.Encoding
