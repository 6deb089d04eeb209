import TupleLogic.Proofs.FieldEncoding

/-! The encoding of a whole model states that an instance satisfies it. -/

namespace TupleLogic.Encoding

open Relational Encoder

variable {v : Vocabulary} {m : Model} {p q : Progress} {int : Prop}

/-! ## All signatures -/

/-- What is asserted about one signature. -/
def signatureCondition (m : Model) (id : SigId) (g : Signature) : Condition := fun α I =>
  I.WithinParent id g ∧ abstractCondition m id g α I ∧
    ∀ mark ∈ markMultiplicities, g.has mark.1 → mark.2.Allows (I.sig id)

theorem states_assertSignature {id : SigId} {g : Signature} :
    States v int (signatureCondition v.model id g) (assertSignature v id g) := by
  have hmarks : States v int (fun _ I => ∀ mark ∈ markMultiplicities, g.has mark.1 →
      mark.2.Allows (I.sig id)) (do
        assertMark v id g .one .one
        assertMark v id g .lone .lone
        assertMark v id g .some .some) := by
    refine ((states_assertMark .one rfl).seq ((states_assertMark .lone rfl).seq
      (states_assertMark .some rfl))).congr fun α I => ?_
    simp [markMultiplicities]
  exact states_assertParent.seq (states_assertAbstract.seq hmarks)

/-- What is asserted about all signatures. -/
def signaturesCondition (m : Model) : Condition := fun α I =>
  (∀ x ∈ m.numbered, signatureCondition m x.1 x.2 α I) ∧
    (topLevel m).Pairwise (fun a b => Disjoint (I.sig a) (I.sig b)) ∧
    ∀ x ∈ m.numbered, (m.children x.1).Pairwise fun a b => Disjoint (I.sig a) (I.sig b)

theorem states_assertSignatures : States v int (signaturesCondition v.model) (assertSignatures v) := by
  refine States.seq ?_ ((states_assertDisjoint _).seq ?_)
  · exact states_forM fun ⟨id, g⟩ _ => states_assertSignature
  · exact states_forM fun ⟨id, g⟩ _ => states_assertDisjoint _

theorem returns_forM_mem {β : Type} {command : β → Encoder PUnit} {xs : List β} {u : PUnit}
    (h : Returns (xs.forM command) p u q) : ∀ x ∈ xs, ∃ s t, Returns (command x) s ⟨⟩ t := by
  induction xs generalizing p with
  | nil => exact nofun
  | cons x xs ih =>
    obtain ⟨r, hx, hxs⟩ := returns_forM_cons.mp h
    exact List.forall_mem_cons.mpr ⟨⟨p, r, hx⟩, ih hxs⟩

/-- The parents that signatures extend are signatures of the model. -/
theorem parent_of_returns {u : Unit} (h : Returns (assertSignatures v) p u q)
    {child parent : SigId} (hext : v.model.Extends child parent) :
    ∃ g, v.model.signature? parent = some g := by
  obtain ⟨g, hg, hparent⟩ := hext
  obtain ⟨_, r, h, _⟩ := returns_bind.mp h
  obtain ⟨s, t, hsig⟩ := returns_forM_mem h (child, g) (mem_numbered.mpr hg)
  obtain ⟨_, r, hsig, _⟩ := returns_bind.mp hsig
  simp only [assertParent, hparent, assertParent.within, returns_bind] at hsig
  obtain ⟨_, _, _, _, _, hlabel, _⟩ := hsig
  exact (returns_sigLabel hlabel).1

/-! ## Satisfaction in pieces -/

theorem pairwise_disjoint_iff {α : Type} {I : Instance α} {ids : List SigId} (h : ids.Nodup) :
    ids.Pairwise (fun a b => Disjoint (I.sig a) (I.sig b)) ↔
      ∀ a ∈ ids, ∀ b ∈ ids, a ≠ b → Disjoint (I.sig a) (I.sig b) := by
  have hsymm : Std.Symm fun a b => Disjoint (I.sig a) (I.sig b) := ⟨fun _ _ hab => hab.symm⟩
  exact ⟨fun hp a ha b hb hab => hp.forall ha hb hab, h.pairwise_of_forall_ne⟩

/-- Siblings are disjoint if those without a parent are, and the extensions of
each signature. -/
theorem disjoint_siblings_iff {α : Type} {I : Instance α}
    (hparents : ∀ {child parent}, m.Extends child parent → ∃ g, m.signature? parent = some g) :
    (∀ {a b : SigId}, m.Siblings a b → Disjoint (I.sig a) (I.sig b)) ↔
      (topLevel m).Pairwise (fun a b => Disjoint (I.sig a) (I.sig b)) ∧
        ∀ x ∈ m.numbered, (m.children x.1).Pairwise fun a b => Disjoint (I.sig a) (I.sig b) := by
  simp only [pairwise_disjoint_iff nodup_topLevel, pairwise_disjoint_iff nodup_children]
  constructor
  · intro h
    refine ⟨fun a ha b hb hab => ?_, fun x _ a ha b hb hab => ?_⟩
    · obtain ⟨g, hg, hga⟩ := mem_topLevel.mp ha
      obtain ⟨g', hg', hgb⟩ := mem_topLevel.mp hb
      exact h ⟨hab, g, g', hg, hg', hga.trans hgb.symm, by simp [hga]⟩
    · obtain ⟨g, hg, hga⟩ := mem_children.mp ha
      obtain ⟨g', hg', hgb⟩ := mem_children.mp hb
      exact h ⟨hab, g, g', hg, hg', hga.trans hgb.symm, by simp [hga]⟩
  · rintro ⟨htop, hchildren⟩ a b ⟨hab, g, g', hg, hg', heq, hsub⟩
    cases hparent : g.parent with
    | top =>
      exact htop a (mem_topLevel.mpr ⟨g, hg, hparent⟩) b
        (mem_topLevel.mpr ⟨g', hg', heq ▸ hparent⟩) hab
    | extending parent =>
      obtain ⟨h, hh⟩ := hparents ⟨g, hg, hparent⟩
      exact hchildren (parent, h) (mem_numbered.mpr hh) a (mem_children.mpr ⟨g, hg, hparent⟩) b
        (mem_children.mpr ⟨g', hg', heq ▸ hparent⟩) hab
    | subset parent => exact absurd hparent (hsub parent)

/-- Extensions lie in what they extend, so that only the atoms of an abstract
signature are in question. -/
theorem abstractCondition_iff {α : Type} {I : Instance α} {id : SigId} {g : Signature}
    (hwithin : ∀ {id g}, m.signature? id = some g → I.WithinParent id g) :
    abstractCondition m id g α I ↔ (g.has .abstract → (∃ c, m.Extends c id) →
      ∀ a ∈ I.sig id, ∃ c, m.Extends c id ∧ a ∈ I.sig c) := by
  have hchildren : m.children id ≠ [] ↔ ∃ c, m.Extends c id := by
    simp only [← mem_children]
    exact ⟨List.exists_mem_of_ne_nil _, fun ⟨_, hc⟩ => List.ne_nil_of_mem hc⟩
  rw [abstractCondition, hchildren]
  refine imp_congr_right fun _ => imp_congr_right fun _ => ?_
  simp only [mem_children]
  constructor
  · intro heq a ha
    rw [heq] at ha
    exact ha
  · intro h
    refine Set.Subset.antisymm h ?_
    rintro a ⟨c, ⟨g', hg', hparent⟩, ha⟩
    have hc := hwithin hg'
    rw [Instance.WithinParent, hparent] at hc
    exact hc ha

theorem columnsCondition_iff_exists {α : Type} {I : Instance α} {fid : FieldId} {fd : Field} :
    columnsCondition fid fd α I ↔ ∀ t ∈ I.field fid, ∃ a ∈ I.sig fid.sig, ∃ rest,
      t = .atom a :: rest ∧ List.Forall₂ I.InColumn fd.columns rest := by
  refine forall₂_congr fun t _ => ?_
  constructor
  · rintro ⟨_, ⟨a, ha, rfl⟩, rest, hrest, rfl⟩
    exact ⟨a, ha, rest, rfl, hrest⟩
  · rintro ⟨a, ha, rest, rfl, hrest⟩
    exact ⟨_, ⟨a, ha, rfl⟩, rest, hrest, rfl⟩

theorem satisfies_iff {α : Type} {I : Instance α}
    (hparents : ∀ {child parent}, m.Extends child parent → ∃ g, m.signature? parent = some g) :
    I.Satisfies m ↔ signaturesCondition m α I ∧
      (∀ fid fd, m.field? fid = some fd → columnsCondition fid fd α I) ∧
      (∀ fid fd, m.field? fid = some fd → multiplicityCondition fid fd α I) ∧
      ∀ fact ∈ m.facts, I.Holds fact.body [] := by
  simp only [columnsCondition_iff_exists]
  constructor
  · intro h
    refine ⟨⟨?_, (disjoint_siblings_iff hparents).mp h.disjoint⟩, fun _ _ => h.columns,
      fun _ _ => h.multiplicities, h.facts⟩
    rintro ⟨id, g⟩ hg
    have hg := mem_numbered.mp hg
    exact ⟨h.parents hg, (abstractCondition_iff h.parents).mpr (h.abstract hg), h.marks hg⟩
  · rintro ⟨⟨hsigs, hdisjoint⟩, hcolumns, hmults, hfacts⟩
    have hsig := fun {id g} (hg : m.signature? id = some g) => hsigs (id, g) (mem_numbered.mpr hg)
    have hwithin := fun {id g} (hg : m.signature? id = some g) => (hsig hg).1
    exact {
      parents := hwithin
      abstract := fun hg => (abstractCondition_iff hwithin).mp (hsig hg).2.1
      disjoint := (disjoint_siblings_iff hparents).mpr hdisjoint
      marks := fun hg => (hsig hg).2.2
      columns := fun hfd => hcolumns _ _ hfd
      multiplicities := fun hfd => hmults _ _ hfd
      facts := hfacts }

/-! ## The model -/

/-- What the signatures and fields of the model say by themselves. -/
def structureCondition (m : Model) : Condition := fun α I =>
  signaturesCondition m α I ∧
    (∀ fid fd, m.field? fid = some fd → columnsCondition fid fd α I) ∧
    ∀ fid fd, m.field? fid = some fd → multiplicityCondition fid fd α I

/-- The encoding of a model declares its vocabulary, asserts what signatures
and fields say, and then the facts. -/
theorem encodeModel_structure {names : NameSupply} {u : Unit}
    (hint : ∀ fid fd, m.field? fid = some fd → fd.multiplicity ≠ .set → fd.usesInt = true → int)
    (h : Returns (encodeModel true m) ⟨.empty, names⟩ u q) :
    ∃ v start mid new, Returns (declareVocabulary m) ⟨.empty, names⟩ v start ∧
      DeclaresVocabulary m v start ∧
      (∀ {child parent}, m.Extends child parent → ∃ g, m.signature? parent = some g) ∧
      Asserts v int (structureCondition m) start mid new ∧
      Returns (m.facts.forM fun fact => assertFact v fact.name fact.body) mid u q := by
  obtain ⟨v, start, hv, h⟩ := returns_bind.mp h
  have hvocabulary := declareVocabulary_returns hv
  obtain rfl := hvocabulary.model
  obtain ⟨_, s, hsigs, h⟩ := returns_bind.mp h
  obtain ⟨_, s', htyping, h⟩ := returns_bind.mp h
  obtain ⟨_, mid, hmults, h⟩ := returns_bind.mp h
  have hsays : States v int _ (assertSignatures v) := states_assertSignatures
  have hsays' : States v int _ (forFields v.model (assertFieldTyping v)) :=
    states_forFields states_assertFieldTyping
  have hsays'' : States v int _ (forFields v.model (assertFieldMultiplicity v)) :=
    states_forFields fun hfd => states_assertFieldMultiplicity hfd (hint _ _ hfd)
  obtain ⟨new, hnew⟩ := hsays start _ s hvocabulary.declared hsigs
  have hs := hvocabulary.declared.extend hnew.extension
  obtain ⟨new', hnew'⟩ := hsays' s _ s' hs htyping
  obtain ⟨new'', hnew''⟩ := hsays'' s' _ mid (hs.extend hnew'.extension) hmults
  exact ⟨v, start, mid, _, hv, hvocabulary, parent_of_returns hsigs,
    hnew.trans hvocabulary.declared (hnew'.trans hs hnew''), h⟩

theorem states_facts (hm : v.model.WellTyped) (hint : v.model.InvolvesInt → int) :
    States v int (fun _ I => ∀ fact ∈ v.model.facts, I.Holds fact.body [])
      (v.model.facts.forM fun fact => assertFact v fact.name fact.body) :=
  states_forM fun fact hfact =>
    states_assertFact (hm fact hfact) (fun hi => hint (.inr ⟨fact, hfact, hi⟩))
      fun h => h fact hfact

theorem encodeModel_returns {names : NameSupply} {u : Unit} (hm : m.WellTyped)
    (h : Returns (encodeModel true m) ⟨.empty, names⟩ u q) :
    ∃ v start new, DeclaresVocabulary m v start ∧
      Asserts v m.InvolvesInt (fun _ I => I.Satisfies m) start q new := by
  have hint : ∀ fid fd, m.field? fid = some fd → fd.multiplicity ≠ .set → fd.usesInt = true →
      m.InvolvesInt := fun fid fd hfd _ hi => .inl ⟨fid, fd, hfd, hi⟩
  obtain ⟨v, start, mid, new, _, hv, hparents, hnew, hfacts⟩ := encodeModel_structure hint h
  obtain rfl := hv.model
  obtain ⟨new', hnew'⟩ := states_facts hm id mid _ q (hv.declared.extend hnew.extension) hfacts
  refine ⟨v, start, new ++ new', hv, (hnew.trans hv.declared hnew').congr fun α I => ?_⟩
  rw [satisfies_iff hparents, structureCondition, and_assoc, and_assoc]

end TupleLogic.Encoding
