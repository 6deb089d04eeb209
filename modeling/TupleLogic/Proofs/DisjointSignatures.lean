import Mathlib.Logic.Relation
import TupleLogic.Proofs.Accumulation
import TupleLogic.Proofs.MeaningPreservation

/-! Signatures that do not extend each other have no atom in common. Only siblings
are asserted to be disjoint, and each extension to lie in what it extends. From
there it is an induction over the hierarchy: where the chains of two signatures part,
there are two siblings, and each of the two lies in one of them. -/

namespace TupleLogic

namespace Relational.Model

variable {m : Model} {a b c : SigId}

/-- The signature extends the other, directly or through signatures in between. -/
def Descends (m : Model) (a b : SigId) : Prop := Relation.TransGen m.Extends a b

/-- The chain of what the signature extends ends at one without a parent. -/
inductive Rooted (m : Model) : SigId → Prop
  | top {id : SigId} {g : Signature} : m.signature? id = some g → g.parent = .top → Rooted m id
  | extending {id parent : SigId} : m.Extends id parent → Rooted m parent → Rooted m id

theorem Extends.signature (h : m.Extends a b) : ∃ g, m.signature? a = some g := by
  obtain ⟨g, hg, _⟩ := h
  exact ⟨g, hg⟩

theorem Siblings.signatures (h : m.Siblings a b) :
    ∃ g g', m.signature? a = some g ∧ m.signature? b = some g' := by
  obtain ⟨_, g, g', hg, hg', _⟩ := h
  exact ⟨g, g', hg, hg'⟩

theorem Extends.siblings (ha : m.Extends a c) (hb : m.Extends b c) (hab : a ≠ b) :
    m.Siblings a b := by
  obtain ⟨g, hg, hga⟩ := ha
  obtain ⟨h, hh, hhb⟩ := hb
  exact ⟨hab, g, h, hg, hh, hga.trans hhb.symm, by simp [hga]⟩

theorem siblings_of_top {g h : Signature} (hg : m.signature? a = some g) (hga : g.parent = .top)
    (hh : m.signature? b = some h) (hhb : h.parent = .top) (hab : a ≠ b) : m.Siblings a b :=
  ⟨hab, g, h, hg, hh, hga.trans hhb.symm, by simp [hga]⟩

theorem not_descends_of_top {g : Signature} (hg : m.signature? a = some g) (hga : g.parent = .top) :
    ¬ m.Descends a b := by
  intro h
  obtain ⟨_, ⟨g', hg', hparent⟩, _⟩ := Relation.TransGen.head'_iff.mp h
  obtain rfl := Option.some.inj (hg.symm.trans hg')
  rw [hga] at hparent
  cases hparent

/-! ## Sets that follow the hierarchy -/

section Sets

variable {β : Type} {r : SigId → Set β}

theorem subset_of_reflTransGen (hextends : ∀ {c p}, m.Extends c p → r c ⊆ r p)
    (h : Relation.ReflTransGen m.Extends a b) : r a ⊆ r b := by
  induction h with
  | refl => exact Set.Subset.rfl
  | tail _ hlast ih => exact ih.trans (hextends hlast)

variable (hextends : ∀ {c p}, m.Extends c p → r c ⊆ r p)
  (hsiblings : ∀ {a b}, m.Siblings a b → Disjoint (r a) (r b))

include hextends hsiblings

theorem disjoint_top {g : Signature} (hg : m.signature? a = some g) (hga : g.parent = .top)
    (hb : m.Rooted b) (hab : a ≠ b) (hba : ¬ m.Descends b a) : Disjoint (r a) (r b) := by
  induction hb with
  | top hh hhb => exact hsiblings (siblings_of_top hg hga hh hhb hab)
  | @extending b parent hext _ ih =>
    have hne : a ≠ parent := by
      rintro rfl
      exact hba (.single hext)
    have hparent : ¬ m.Descends parent a := fun h => hba (.head hext h)
    exact (ih hne hparent).mono_right (hextends hext)

/-- Either the parent of `a` is not on the chain of `b`, or the chain of `b` comes to
it through a sibling of `a`. -/
theorem disjoint_of_unrelated (ha : m.Rooted a) (hb : m.Rooted b) (hne : a ≠ b)
    (hab : ¬ m.Descends a b) (hba : ¬ m.Descends b a) : Disjoint (r a) (r b) := by
  induction ha with
  | top hg hga => exact disjoint_top hextends hsiblings hg hga hb hne hba
  | @extending a parent hext _ ih =>
    by_cases hchain : m.Descends b parent
    · obtain ⟨c, hbc, hc⟩ := Relation.TransGen.tail'_iff.mp hchain
      have hac : a ≠ c := by
        rintro rfl
        rcases Relation.reflTransGen_iff_eq_or_transGen.mp hbc with heq | h
        · exact hne heq
        · exact hba h
      have hdisjoint := hsiblings (hext.siblings hc hac)
      exact hdisjoint.mono_right (subset_of_reflTransGen hextends hbc)
    · have hparent : parent ≠ b := by
        rintro rfl
        exact hab (.single hext)
      have hdisjoint := ih hparent (fun h => hab (.head hext h)) hchain
      exact hdisjoint.mono_left (hextends hext)

end Sets

end Relational.Model

namespace Encoding

open Relational Encoder

variable {given : List String} {free : String → Prop} {v : Vocabulary} {n : Nat}

/-! ## Assertions about signatures -/

theorem makes_assertParent (hv : v.Over n) {child parent : SigId} {g : Signature} {d e : DeclId}
    (hg : g.parent = .extending parent) (hd : v.signatures[child.index]? = some d)
    (he : v.signatures[parent.index]? = some e) :
    Makes given free n (assertParent v child g) fun a => a.formula = .subset (.ref d) (.ref e) where
  steps := stepwise_assertParent hv child g
  made _ h := by
    simp only [assertParent, hg, assertParent.within, returns_bind, returns_sigRelation,
      returns_assertTerm] at h
    obtain ⟨_, _, ⟨d', hd', rfl, rfl⟩, _, _, _, _, _, ⟨e', he', rfl, rfl⟩, rfl⟩ := h
    obtain rfl := Option.some.inj (hd.symm.trans hd')
    obtain rfl := Option.some.inj (he.symm.trans he')
    exact ⟨_, List.mem_append_right _ (List.mem_singleton_self _), rfl⟩

/-- The assertion says that two relations have nothing in common. -/
def IsDisjointness (d e : DeclId) (a : Assertion) : Prop :=
  a.formula = .equals (.intersection (.ref d) (.ref e)) (.emptySet unaryRelation)

theorem makes_assertDisjointPair (hv : v.Over n) {a b : SigId} {d e : DeclId}
    (hd : v.signatures[a.index]? = some d) (he : v.signatures[b.index]? = some e) :
    Makes given free n (assertDisjointPair v a b) (IsDisjointness d e) where
  steps := stepwise_assertDisjointPair hv a b
  made _ h := by
    simp only [assertDisjointPair, returns_bind, returns_sigRelation, returns_assertTerm] at h
    obtain ⟨_, _, _, _, _, _, _, _, ⟨d', hd', rfl, rfl⟩, _, _, ⟨e', he', rfl, rfl⟩, rfl⟩ := h
    obtain rfl := Option.some.inj (hd.symm.trans hd')
    obtain rfl := Option.some.inj (he.symm.trans he')
    exact ⟨_, List.mem_append_right _ (List.mem_singleton_self _), rfl⟩

/-- Of two signatures in the list, the earlier is paired with the later. -/
theorem makes_assertDisjoint (hv : v.Over n) {ids : List SigId} {a b : SigId} {d e : DeclId}
    (hd : v.signatures[a.index]? = some d) (he : v.signatures[b.index]? = some e)
    (ha : a ∈ ids) (hb : b ∈ ids) (hab : a ≠ b) :
    Makes given free n (assertDisjoint v ids) fun x =>
      IsDisjointness d e x ∨ IsDisjointness e d x := by
  induction ids with
  | nil => cases ha
  | cons c rest ih =>
    have hpairs : ∀ x ∈ rest, Stepwise given free n (assertDisjointPair v c x) fun _ _ => True :=
      fun x _ => stepwise_assertDisjointPair hv c x
    have hrest : Stepwise given free n (assertDisjoint v rest) fun _ _ => True :=
      stepwise_assertDisjoint hv rest
    rcases List.mem_cons.mp ha with hac | har <;> rcases List.mem_cons.mp hb with hbc | hbr
    · exact absurd (hac.trans hbc.symm) hab
    · subst hac
      refine (makes_forM hpairs hbr ?_).before hrest
      exact (makes_assertDisjointPair hv hd he).imp fun _ => .inl
    · subst hbc
      refine (makes_forM hpairs har ?_).before hrest
      exact (makes_assertDisjointPair hv he hd).imp fun _ => .inr
    · exact (ih har hbr).after (.forM hpairs)

section Signatures

variable {a b : SigId} {d e : DeclId} (hv : v.Over n) (hd : v.signatures[a.index]? = some d)
  (he : v.signatures[b.index]? = some e)

include hv hd he

theorem makes_inclusion (h : v.model.Extends a b) :
    Makes given free n (assertSignatures v) fun x => x.formula = .subset (.ref d) (.ref e) := by
  obtain ⟨g, hg, hparent⟩ := h
  have hall : ∀ x ∈ v.model.numbered,
      Stepwise given free n (assertSignature v x.1 x.2) fun _ _ => True :=
    fun x _ => stepwise_assertSignature hv x.1 x.2
  refine (makes_forM hall (mem_numbered.mpr hg) ?_).before ?_
  · refine (makes_assertParent hv hparent hd he).before ?_
    exact (stepwise_assertAbstract hv a g).seq <| (stepwise_assertMark hv a g .one .one).seq <|
      (stepwise_assertMark hv a g .lone .lone).seq (stepwise_assertMark hv a g .some .some)
  · exact (stepwise_assertDisjoint hv _).seq <|
      .forM fun x _ => stepwise_assertDisjoint hv (v.model.children x.1)

/-- Siblings are paired, those without a parent in one list and those with one in the
list of its extensions. -/
theorem makes_disjointness (hparents : ∀ {c p}, v.model.Extends c p →
      ∃ g, v.model.signature? p = some g) (h : v.model.Siblings a b) :
    Makes given free n (assertSignatures v) fun x =>
      IsDisjointness d e x ∨ IsDisjointness e d x := by
  obtain ⟨hab, g, g', hg, hg', heq, hsub⟩ := h
  have hchildren : ∀ x ∈ v.model.numbered,
      Stepwise given free n (assertDisjoint v (v.model.children x.1)) fun _ _ => True :=
    fun x _ => stepwise_assertDisjoint hv (v.model.children x.1)
  refine Makes.after ?_ (.forM fun x _ => stepwise_assertSignature hv x.1 x.2)
  cases hparent : g.parent with
  | top =>
    have ha : a ∈ topLevel v.model := mem_topLevel.mpr ⟨g, hg, hparent⟩
    have hb : b ∈ topLevel v.model := mem_topLevel.mpr ⟨g', hg', heq ▸ hparent⟩
    exact (makes_assertDisjoint hv hd he ha hb hab).before (.forM hchildren)
  | extending parent =>
    obtain ⟨h, hh⟩ := hparents ⟨g, hg, hparent⟩
    have ha : a ∈ v.model.children parent := mem_children.mpr ⟨g, hg, hparent⟩
    have hb : b ∈ v.model.children parent := mem_children.mpr ⟨g', hg', heq ▸ hparent⟩
    exact (makes_forM hchildren (mem_numbered.mpr hh) (makes_assertDisjoint hv hd he ha hb hab)).after
      (stepwise_assertDisjoint hv _)
  | subset parent => exact absurd hparent (hsub parent)

end Signatures

/-! ## Structures -/

theorem IsDisjointness.disjoint {E : Type} {M : Structure E} {s : Script} {d e : DeclId}
    {x : Assertion} (hx : IsDisjointness d e x) (h : x.formula.Holds s M) :
    Disjoint (M.meaning d []).elements (M.meaning e []).elements := by
  rw [hx, Term.holds_equals, Term.eval_intersection, Term.eval_emptySet, Term.eval_ref,
    Term.eval_ref, TermValue.set.injEq] at h
  exact Set.disjoint_iff_inter_eq_empty.mpr h

section Structures

variable {m : Model} {settings : Settings} {names names' : NameSupply} {s : Script}

/-- The script of a model makes the assertions that its signatures make. -/
theorem encode_makes (h : m.encode settings names = (.ok s, names')) :
    ∃ v n, v.model = m ∧ v.Over n ∧
      (∀ {c p}, m.Extends c p → ∃ g, m.signature? p = some g) ∧
      (∀ {id g}, m.signature? id = some g → ∃ d, v.signatures[id.index]? = some d ∧
        s.lookup (relationName g.label) = some d) ∧
      ∀ {such : Assertion → Prop}, Makes [] (fun _ => True) n (assertSignatures v) such →
        ∃ a ∈ s.assertions, such a := by
  obtain ⟨u, hrun⟩ := returns_of_encode h
  obtain ⟨v, n, start, hdeclared, hv, hstart, hasserts⟩ := encodeModel_asserts hrun
  obtain rfl := hdeclared.model
  have hrest : Stepwise [] (fun _ => True) n _ fun _ _ => True :=
    stepwise_afterSignatures hv (fun _ _ _ _ => trivial) settings.fieldTyping
  have hgrows := ((stepwise_assertSignatures hv).seq hrest).grows hstart hasserts
  obtain ⟨_, _, hsignatures, _⟩ := returns_bind.mp hasserts
  refine ⟨v, n, rfl, hv, parent_of_returns hsignatures, fun hg => ?_,
    fun hmakes => (hmakes.before hrest).made hstart hasserts⟩
  obtain ⟨d, hd, hlookup⟩ := hdeclared.signature_relation hg
  exact ⟨d, hd, hgrows.extension.lookup hlookup⟩

/-- In every structure of the script of a model, a signature lies in all that it
descends from, and two signatures neither of which descends from the other have
nothing in common. -/
theorem encode_separates_signatures (h : m.encode settings names = (.ok s, names')) {E : Type}
    {M : Structure E} (hM : M.Models s s.assertions) :
    (∀ id g, m.signature? id = some g → ∃ d, s.lookup (relationName g.label) = some d ∧
      signatureValue M s m id = (M.meaning d []).elements) ∧
    (∀ a b, m.Descends a b → signatureValue M s m a ⊆ signatureValue M s m b) ∧
    ∀ a b, m.Rooted a → m.Rooted b → a ≠ b → ¬ m.Descends a b → ¬ m.Descends b a →
      Disjoint (signatureValue M s m a) (signatureValue M s m b) := by
  obtain ⟨v, n, rfl, hv, hparents, hrelations, hmade⟩ := encode_makes h
  have hextends : ∀ {c p}, v.model.Extends c p →
      signatureValue M s v.model c ⊆ signatureValue M s v.model p := by
    intro c p hcp
    obtain ⟨g, hg⟩ := hcp.signature
    obtain ⟨g', hg'⟩ := hparents hcp
    obtain ⟨d, hd, hlookup⟩ := hrelations hg
    obtain ⟨e, he, hlookup'⟩ := hrelations hg'
    obtain ⟨x, hx, hformula⟩ := hmade (makes_inclusion hv hd he hcp)
    have hholds := hM x hx
    rw [hformula, Term.holds_subset, Term.eval_ref, Term.eval_ref] at hholds
    rw [signatureValue_eq hg hlookup, signatureValue_eq hg' hlookup']
    exact hholds
  have hsiblings : ∀ {a b}, v.model.Siblings a b →
      Disjoint (signatureValue M s v.model a) (signatureValue M s v.model b) := by
    intro a b hab
    obtain ⟨g, g', hg, hg'⟩ := hab.signatures
    obtain ⟨d, hd, hlookup⟩ := hrelations hg
    obtain ⟨e, he, hlookup'⟩ := hrelations hg'
    rw [signatureValue_eq hg hlookup, signatureValue_eq hg' hlookup']
    obtain ⟨x, hx, hdisjoint | hdisjoint⟩ := hmade (makes_disjointness hv hd he hparents hab)
    · exact hdisjoint.disjoint (hM x hx)
    · exact (hdisjoint.disjoint (hM x hx)).symm
  refine ⟨fun id g hg => ?_, fun a b hab => ?_, fun a b ha hb hne hab hba => ?_⟩
  · obtain ⟨d, _, hlookup⟩ := hrelations hg
    exact ⟨d, hlookup, signatureValue_eq hg hlookup⟩
  · exact Model.subset_of_reflTransGen hextends hab.to_reflTransGen
  · exact Model.disjoint_of_unrelated hextends hsiblings ha hb hne hab hba

end Structures

/-- Two signatures without a parent, and a chain of two that extends the first. -/
def branchModel : Model where
  signatures := [⟨"A", .top, [], []⟩, ⟨"B", .top, [], []⟩, ⟨"C", .extending ⟨0⟩, [], []⟩,
    ⟨"D", .extending ⟨2⟩, [], []⟩]

/-- One atom is in the chain and the other one is not. -/
def branchInstance : Instance Bool where
  sig id := {decide (id = ⟨1⟩)}
  field _ := ∅

theorem branchModel_field (id : FieldId) : branchModel.field? id = none := by
  obtain ⟨⟨_ | _ | _ | _ | i⟩, j⟩ := id <;> rfl

theorem satisfies_branchInstance : branchInstance.Satisfies branchModel where
  parents {id g} hg := by
    obtain ⟨_ | _ | _ | _ | i⟩ := id <;> cases hg
    · trivial
    · trivial
    · exact Set.Subset.rfl
    · exact Set.Subset.rfl
  abstract {id g} hg habstract := by
    have hnone : ∀ g ∈ branchModel.signatures, ¬ g.has .abstract := by decide
    exact absurd habstract (hnone g (List.mem_of_getElem? hg))
  disjoint {a b} h := by
    obtain ⟨hne, g, g', hg, hg', hparent, _⟩ := h
    have hapart : ∀ x ∈ branchModel.numbered, ∀ y ∈ branchModel.numbered, x.1 ≠ y.1 →
        x.2.parent = y.2.parent → decide (x.1 = ⟨1⟩) ≠ decide (y.1 = ⟨1⟩) := by decide
    exact Set.disjoint_singleton.mpr
      (hapart (a, g) (mem_numbered.mpr hg) (b, g') (mem_numbered.mpr hg') hne hparent)
  marks {id g} hg mark hmark hhas := by
    have hnone : ∀ g ∈ branchModel.signatures, ∀ mark ∈ markMultiplicities, ¬ g.has mark.1 := by
      decide
    exact absurd hhas (hnone g (List.mem_of_getElem? hg) mark hmark)
  columns {id f} hf := by
    rw [branchModel_field] at hf
    cases hf
  multiplicities {id f} hf := by
    rw [branchModel_field] at hf
    cases hf
  facts := List.forall_mem_nil _

/-- The last signature of the chain lies in the first, and apart from the one beside
the chain. -/
theorem encode_separates_signatures_branch : ∃ s names E, ∃ M : Structure E,
    branchModel.encode {} {} = (.ok s, names) ∧ M.Models s s.assertions ∧
      (signatureValue M s branchModel ⟨1⟩).Nonempty ∧
      (signatureValue M s branchModel ⟨3⟩).Nonempty ∧
      signatureValue M s branchModel ⟨3⟩ ⊆ signatureValue M s branchModel ⟨0⟩ ∧
      Disjoint (signatureValue M s branchModel ⟨1⟩) (signatureValue M s branchModel ⟨3⟩) := by
  obtain ⟨s, names, hs⟩ := @encode_of_isOk branchModel {} (by decide +kernel)
  have htyped : branchModel.WellTyped := List.forall_mem_nil _
  obtain ⟨v, start, q, new, hv, rfl, hnew⟩ := encode_ok htyped hs
  obtain ⟨M, hM, _, _, hmodels⟩ := hnew.realization hv (fun _ => Set.finite_empty)
    (List.forall_mem_nil _) satisfies_branchInstance
  have hrepresents := hM.represents hv hnew.extension
  have hnonempty : ∀ id g, branchModel.signature? id = some g →
      (signatureValue M q.script branchModel id).Nonempty := by
    intro id g hg
    obtain ⟨d, hlookup, hvalue⟩ := hrepresents.sig hg
    rw [signatureValue_eq hg hlookup, hvalue]
    exact ⟨_, _, ⟨_, ⟨_, rfl, rfl⟩, rfl⟩, rfl⟩
  obtain ⟨_, hdescends, hunrelated⟩ := encode_separates_signatures hs hmodels
  have hC : branchModel.Extends ⟨2⟩ ⟨0⟩ := ⟨_, rfl, rfl⟩
  have hD : branchModel.Extends ⟨3⟩ ⟨2⟩ := ⟨_, rfl, rfl⟩
  have hB : branchModel.signature? ⟨1⟩ = some ⟨"B", .top, [], []⟩ := rfl
  have hrooted : branchModel.Rooted ⟨3⟩ := .extending hD (.extending hC (.top rfl rfl))
  have hbeside : ¬ branchModel.Descends ⟨3⟩ ⟨1⟩ := by
    intro h
    obtain ⟨c, _, g, hg, hparent⟩ := Relation.TransGen.tail'_iff.mp h
    have hall : ∀ g ∈ branchModel.signatures, g.parent ≠ .extending ⟨1⟩ := by decide
    exact hall g (List.mem_of_getElem? hg) hparent
  exact ⟨q.script, names, _, M, hs, hmodels, hnonempty _ _ hB, hnonempty ⟨3⟩ _ rfl,
    hdescends _ _ (.head hD (.single hC)),
    hunrelated _ _ (.top hB rfl) hrooted (by decide) (Model.not_descends_of_top hB rfl) hbeside⟩

end Encoding

end TupleLogic
