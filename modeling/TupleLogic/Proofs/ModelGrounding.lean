import TupleLogic.Proofs.GroundedEncoding

/-! Models are encoded as sound scripts. Whatever the labels and facts are, the
declarations of the vocabulary come first, and each assertion about signatures,
fields and facts is grounded in what is declared by then. -/

namespace TupleLogic

/-- The integer literals of the facts are machine words. -/
def Relational.Model.LiteralsFit (m : Model) : Prop :=
  ∀ fact ∈ m.facts, ∀ n ∈ fact.body.literals, Text.fitsSigned64 n = true

namespace Encoding

open Relational Encoder

variable {v : Vocabulary} {start : Nat} {p q : Progress}

theorem Keeps.seq {first second : Encoder Unit} (h : Keeps v start first fun _ _ => True)
    (h' : Keeps v start second fun _ _ => True) :
    Keeps v start (first >>= fun _ => second) fun _ _ => True := by
  intro p u q hp hu
  obtain ⟨_, r, hfirst, hsecond⟩ := returns_bind.mp hu
  obtain ⟨hr, _⟩ := h hp hfirst
  obtain ⟨hq, _⟩ := h' hr.settled hsecond
  exact ⟨hr.trans hq, trivial⟩

theorem keeps_pure : Keeps v start (pure ()) fun _ _ => True := by
  intro p u q hp hu
  obtain ⟨_, rfl⟩ := returns_pure.mp hu
  exact ⟨.refl hp, trivial⟩

theorem keeps_sigLabel (id : SigId) : Keeps v start (sigLabel v id) fun _ _ => True := by
  intro p label q hp h
  obtain ⟨_, rfl⟩ := returns_sigLabel h
  exact ⟨.refl hp, trivial⟩

/-! ## Facts -/

theorem scopeWithin_nil : Scope.Within [] [] := fun h => nomatch h

theorem keeps_assertFact {name : String} {body : Expr}
    (hfits : ∀ n ∈ body.literals, Text.fitsSigned64 n = true) :
    Keeps v start (assertFact v name body) fun _ _ => True := by
  intro p u q hp h
  simp only [assertFact, returns_bind] at h
  obtain ⟨t, r, ht, h⟩ := h
  obtain ⟨hr, ht⟩ := keeps_formula (keeps_encode hfits scopeWithin_nil) hp ht
  exact ⟨hr.trans (hr.settled.assertTerm ht h), trivial⟩

/-! ## Signatures -/

section Signatures

variable {id : SigId} {g : Signature}

theorem keeps_within {relation : Term} {parent : SigId} (hp : Settled v start p)
    (hrelation : Grounded p.script [] relation) {u : Unit}
    (h : Returns (assertParent.within v g relation parent) p u q) : Continues v start p q := by
  simp only [assertParent.within, returns_bind] at h
  obtain ⟨label, r, hlabel, whole, r', hwhole, h⟩ := h
  obtain ⟨hr, _⟩ := keeps_sigLabel parent hp hlabel
  obtain ⟨hr', hwhole⟩ := keeps_sigRelation parent hr.settled hwhole
  have hpr := hr.trans hr'
  refine hpr.trans (hr'.settled.assertTerm (.binary ?_ hwhole (by decide)) h)
  exact hrelation.extend hpr.extension

theorem keeps_assertParent : Keeps v start (assertParent v id g) fun _ _ => True := by
  intro p u q hp h
  obtain ⟨relation, r, hrelation, h⟩ := returns_bind.mp h
  obtain ⟨hr, hrelation⟩ := keeps_sigRelation id hp hrelation
  split at h
  · have huniv := hr.settled.vocabulary.univ.precedes
    exact ⟨hr.trans (hr.settled.assertTerm
      (.binary hrelation (.declared huniv) (by decide)) h), trivial⟩
  · exact ⟨hr.trans (keeps_within hr.settled hrelation h), trivial⟩
  · rename_i parent _
    split at h
    · simp only [returns_bind] at h
      obtain ⟨label, r', hlabel, whole, r'', hwhole, h⟩ := h
      obtain ⟨hr', _⟩ := keeps_sigLabel parent hr.settled hlabel
      obtain ⟨hr'', hwhole⟩ := keeps_sigRelation parent hr'.settled hwhole
      have hrest := hr'.trans hr''
      refine ⟨hr.trans (hrest.trans (hr''.settled.assertTerm
        (.binary ?_ hwhole (by decide)) h)), trivial⟩
      exact hrelation.extend hrest.extension
    · exact ⟨hr.trans (keeps_within hr.settled hrelation h), trivial⟩

theorem keeps_assertAbstract : Keeps v start (assertAbstract v id g) fun _ _ => True := by
  intro p u q hp h
  unfold assertAbstract at h
  split at h
  · simp only [returns_bind] at h
    obtain ⟨relation, r, hrelation, children, r', hchildren, h⟩ := h
    obtain ⟨hr, hrelation⟩ := keeps_sigRelation id hp hrelation
    obtain ⟨hr', hchildren⟩ := keeps_mapM (P := fun s t => Grounded s [] t)
      (fun hst ht => ht.extend hst) (fun c _ => keeps_sigRelation c)
      hr.settled hchildren
    split at h
    · simp only [returns_bind, returns_liftTerm] at h
      obtain ⟨union, _, ⟨hunion, rfl⟩, hassert⟩ := h
      refine ⟨(hr.trans hr').trans
        (hr'.settled.assertTerm (.binary ?_ ?_ (by decide)) hassert), trivial⟩
      · exact hrelation.extend hr'.extension
      · exact grounded_unionAll hchildren hunion
    · obtain ⟨_, rfl⟩ := returns_pure.mp h
      exact ⟨hr.trans hr', trivial⟩
  · exact keeps_pure hp h

theorem keeps_assertMark {mark : Mark} {op : Relational.UnaryOp} :
    Keeps v start (assertMark v id g mark op) fun _ _ => True := by
  unfold assertMark
  split
  · exact keeps_assertFact nofun
  · exact keeps_pure

theorem keeps_assertSignature : Keeps v start (assertSignature v id g) fun _ _ => True :=
  keeps_assertParent.seq (keeps_assertAbstract.seq (keeps_assertMark.seq
    (keeps_assertMark.seq keeps_assertMark)))

theorem keeps_assertDisjointPair {a b : SigId} :
    Keeps v start (assertDisjointPair v a b) fun _ _ => True := by
  intro p u q hp h
  simp only [assertDisjointPair, returns_bind] at h
  obtain ⟨_, r₁, hfirst, _, r₂, hsecond, t, r₃, ht, t', r₄, ht', h⟩ := h
  obtain ⟨hr₁, _⟩ := keeps_sigLabel a hp hfirst
  obtain ⟨hr₂, _⟩ := keeps_sigLabel b hr₁.settled hsecond
  obtain ⟨hr₃, ht⟩ := keeps_sigRelation a hr₂.settled ht
  obtain ⟨hr₄, ht'⟩ := keeps_sigRelation b hr₃.settled ht'
  refine ⟨hr₁.trans (hr₂.trans (hr₃.trans (hr₄.trans (hr₄.settled.assertTerm
    (.binary (.binary ?_ ht' (by decide)) (.emptySet (by decide)) (by decide)) h)))), trivial⟩
  exact ht.extend hr₄.extension

theorem keeps_assertDisjoint (ids : List SigId) :
    Keeps v start (assertDisjoint v ids) fun _ _ => True := by
  induction ids with
  | nil => exact keeps_pure
  | cons a ids ih => exact (keeps_forM fun b _ => keeps_assertDisjointPair).seq ih

theorem keeps_assertSignatures : Keeps v start (assertSignatures v) fun _ _ => True :=
  (keeps_forM fun _ _ => keeps_assertSignature).seq ((keeps_assertDisjoint _).seq
    (keeps_forM fun _ _ => keeps_assertDisjoint _))

end Signatures

/-! ## Fields -/

section Fields

variable {owner relation t : Term} {columns : List Column}

theorem keeps_columnRelation (c : Column) {bound : List DeclId} :
    Keeps v start (columnRelation v c) fun s t => Grounded s bound t := by
  cases c with
  | sig id => exact keeps_sigRelation id
  | univ => exact keeps_builtinRelation .univ
  | int =>
    intro p t q _ h
    exact (not_returns_unsupported h).elim

theorem productBound_grounded (hp : Settled v start p) (howner : Grounded p.script [] owner)
    (h : Returns (columns.foldlM (fun acc c => do return .product acc (← columnRelation v c)) owner)
      p t q) : Continues v start p q ∧ Grounded q.script [] t := by
  induction columns generalizing p owner with
  | nil =>
    obtain ⟨rfl, rfl⟩ := returns_pure.mp h
    exact ⟨.refl hp, howner⟩
  | cons c columns ih =>
    rw [List.foldlM_cons] at h
    simp only [returns_bind, returns_pure] at h
    obtain ⟨_, r, ⟨u, _, hu, rfl, rfl⟩, hrest⟩ := h
    obtain ⟨hr, hu⟩ := keeps_columnRelation c hp hu
    obtain ⟨hq, ht⟩ := ih hr.settled
      (.binary (howner.extend hr.extension) hu (by decide)) hrest
    exact ⟨hr.trans hq, ht⟩

theorem productTyping_grounded (hp : Settled v start p) (howner : Grounded p.script [] owner)
    (hrelation : Grounded p.script [] relation)
    (h : Returns (productTyping v owner relation columns) p t q) :
    Continues v start p q ∧ Grounded q.script [] t := by
  obtain ⟨product, _, hproduct, h⟩ := returns_bind.mp h
  obtain ⟨rfl, rfl⟩ := returns_pure.mp h
  obtain ⟨hq, hproduct⟩ := productBound_grounded hp howner hproduct
  exact ⟨hq, .binary (hrelation.extend hq.extension) hproduct (by decide)⟩

theorem keeps_typedColumn (c : Column) : Keeps v start (typedColumn v c)
    fun s typed => IsDrawn s typed.1 ∧ ∀ g ∈ typed.2, Grounded s [typed.1] g := by
  intro p typed q hp h
  obtain ⟨x, r, hx, h⟩ := returns_bind.mp h
  have hsort : (columnSort c).encodable = true := by cases c <;> rfl
  obtain ⟨hr, hx⟩ := keeps_freshVariable hsort hp hx
  split at h
  · obtain ⟨rfl, rfl⟩ := returns_pure.mp h
    exact ⟨hr, hx, nofun⟩
  · simp only [returns_bind, returns_liftTerm, returns_pure] at h
    obtain ⟨tuple, _, ⟨htuple, rfl⟩, u, _, hu, rfl, rfl⟩ := h
    obtain ⟨hq, hu⟩ := keeps_columnRelation c hr.settled hu
    refine ⟨hr.trans hq, hx.extend hq.extension, fun g hg => ?_⟩
    rw [← Option.some.inj hg]
    exact .binary (grounded_mkTuple_ref (List.mem_singleton.mpr rfl) htuple) hu (by decide)

theorem guardedTyping_grounded (hp : Settled v start p) (howner : Grounded p.script [] owner)
    (hrelation : Grounded p.script [] relation)
    (h : Returns (guardedTyping v owner relation columns) p t q) :
    Continues v start p q ∧ Grounded q.script [] t := by
  simp only [guardedTyping, returns_bind, returns_liftTerm] at h
  obtain ⟨x, _, hx, single, r, ⟨hsingle, rfl⟩, typed, _, htyped, tuple, _, ⟨htuple, rfl⟩, ht,
    rfl⟩ := h
  obtain ⟨hr, hx⟩ := keeps_freshVariable rfl hp hx
  obtain ⟨hq, htyped⟩ := keeps_mapM
    (P := fun s (c : DeclId × Option Term) => IsDrawn s c.1 ∧ ∀ g ∈ c.2, Grounded s [c.1] g)
    (fun hst hc => ⟨hc.1.extend hst, fun g hg => (hc.2 g hg).extend hst⟩)
    (fun c _ => keeps_typedColumn c) hr.settled htyped
  have hpq := hr.trans hq
  refine ⟨hpq, grounded_quantify (List.forall_mem_cons.mpr ⟨hx.extend hq.extension, ?_⟩)
    (.binary (.binary (grounded_mkTuple ?_ htuple) ?_ (by decide))
      (grounded_conj (List.forall_mem_cons.mpr ⟨?_, ?_⟩)) (by decide)) ht⟩
  · intro y hy
    obtain ⟨c, hc, rfl⟩ := List.mem_map.mp hy
    exact (htyped c hc).1
  · intro u hu
    obtain ⟨y, hy, rfl⟩ := List.mem_map.mp hu
    exact .bound (List.mem_append_left _ hy)
  · exact hrelation.mono hpq.extension (List.nil_subset _)
  · refine .binary (grounded_mkTuple_ref (by simp) hsingle) ?_ (by decide)
    exact howner.mono hpq.extension (List.nil_subset _)
  · intro u hu
    obtain ⟨c, hc, hg⟩ := List.mem_filterMap.mp hu
    refine ((htyped c hc).2 u hg).mono (.refl _) fun y hy => ?_
    rw [List.mem_singleton.mp hy]
    exact List.mem_append_left _ (List.mem_cons_of_mem _ (List.mem_map_of_mem hc))

theorem keeps_assertFieldTyping {id : SigId} {g : Signature} {index : Nat} {f : Field} :
    Keeps v start (assertFieldTyping v id g index f) fun _ _ => True := by
  intro p u q hp h
  simp only [assertFieldTyping, returns_bind] at h
  obtain ⟨owner, r, howner, relation, r', hrelation, h⟩ := h
  obtain ⟨hr, howner⟩ := keeps_sigRelation id hp howner
  obtain ⟨hr', hrelation⟩ := keeps_fieldRelation ⟨id, index⟩ hr.settled hrelation
  have hpr := hr.trans hr'
  have howner : Grounded r'.script [] owner := howner.extend hr'.extension
  split at h
  · simp only [returns_bind] at h
    obtain ⟨t, r'', ht, h⟩ := h
    obtain ⟨hr'', ht⟩ := guardedTyping_grounded hr'.settled howner hrelation ht
    exact ⟨hpr.trans (hr''.trans (hr''.settled.assertTerm ht h)), trivial⟩
  · simp only [returns_bind] at h
    obtain ⟨t, r'', ht, h⟩ := h
    obtain ⟨hr'', ht⟩ := productTyping_grounded hr'.settled howner hrelation ht
    exact ⟨hpr.trans (hr''.trans (hr''.settled.assertTerm ht h)), trivial⟩

theorem keeps_assertFieldMultiplicity {id : SigId} {g : Signature} {index : Nat} {f : Field} :
    Keeps v start (assertFieldMultiplicity v id g index f) fun _ _ => True := by
  intro p u q hp h
  unfold assertFieldMultiplicity at h
  split at h
  · exact keeps_pure hp h
  · split at h
    · obtain ⟨_, _, hu, _⟩ := returns_bind.mp h
      exact (not_returns_unsupported hu).elim
    · exact keeps_assertFact (by simp [Expr.literals, literalsBound]) hp h

theorem keeps_forFields {m : Model}
    {assertion : SigId → Signature → Nat → Field → Encoder Unit}
    (h : ∀ id g index f, Keeps v start (assertion id g index f) fun _ _ => True) :
    Keeps v start (forFields m assertion) fun _ _ => True :=
  keeps_forM fun _ _ => keeps_forM fun _ _ => h _ _ _ _

end Fields

/-! ## The vocabulary -/

section Declarations

variable {m : Model}

/-- A relation for a signature or field is declared. -/
theorem Sound.declareRelation (hp : Sound m start p) {name : String} {sort : TermSort}
    {id : DeclId} (hname : name ∈ m.relationNames) (hs : sort.encodable = true)
    (h : Returns (declareRelation name sort) p id q) : Sound m start q := by
  obtain ⟨s, hs', rfl⟩ := returns_edit.mp h
  obtain ⟨hfree, rfl, rfl⟩ := Script.declareFunction_eq_add.mp hs'
  exact hp.add hfree nofun hs (.inl hname) rfl

theorem mem_relationNames {g : Signature} (hg : g ∈ m.signatures) :
    relationName g.label ∈ m.relationNames ∧ ∀ f ∈ g.fields, fieldName g f ∈ m.relationNames := by
  refine ⟨List.mem_flatMap.mpr ⟨g, hg, List.mem_cons_self⟩, fun f hf => ?_⟩
  exact List.mem_flatMap.mpr ⟨g, hg, List.mem_cons_of_mem _ (List.mem_map_of_mem hf)⟩

theorem Sound.declareField (hp : Sound m start p) {g : Signature} {f : Field} {id : DeclId}
    (hg : g ∈ m.signatures) (hf : f ∈ g.fields) (h : Returns (declareField g f) p id q) :
    Sound m start q := by
  unfold Encoding.declareField at h
  split at h
  · obtain ⟨_, _, hu, _⟩ := returns_bind.mp h
    exact (not_returns_unsupported hu).elim
  · simp only [returns_bind, returns_liftTerm] at h
    obtain ⟨sort, _, ⟨hsort, rfl⟩, h⟩ := h
    refine hp.declareRelation ((mem_relationNames hg).2 f hf) (encodable_mkRelation ?_ hsort) h
    refine List.forall_mem_cons.mpr ⟨rfl, fun c hc => ?_⟩
    obtain ⟨column, _, rfl⟩ := List.mem_map.mp hc
    cases column <;> rfl

theorem Sound.mapM (hp : Sound m start p) {β γ : Type} {f : β → Encoder γ} {xs : List β}
    {ys : List γ} (hf : ∀ x ∈ xs, ∀ {p y q}, Sound m start p → Returns (f x) p y q →
      Sound m start q) (h : Returns (xs.mapM f) p ys q) : Sound m start q := by
  induction xs generalizing p ys with
  | nil =>
    obtain ⟨_, rfl⟩ := returns_mapM_nil.mp h
    exact hp
  | cons x xs ih =>
    rw [List.forall_mem_cons] at hf
    obtain ⟨y, r, ys', hx, hxs, rfl⟩ := returns_mapM_cons.mp h
    exact ih (hf.1 hp hx) hf.2 hxs

theorem settled_declareVocabulary {names : NameSupply}
    (h : Returns (declareVocabulary m) ⟨.empty, names⟩ v q) :
    v.model = m ∧ Settled v names.variableCount q := by
  have hv := declareVocabulary_returns h
  obtain rfl := hv.model
  refine ⟨rfl, ?_, hv.declared⟩
  simp only [declareVocabulary, returns_bind, returns_pure] at h
  obtain ⟨ids, r, hbuiltins, sigs, r', hsigs, fields, _, hfields, _, rfl⟩ := h
  obtain ⟨rfl, rfl⟩ := returns_declareBuiltins hbuiltins
  have hsigs := (sound_builtinScript (m := v.model)).mapM
    (fun g hg _ _ _ hp h => hp.declareRelation (mem_relationNames hg).1 (by decide) h) hsigs
  refine hsigs.mapM (fun g hg _ _ _ hp h => ?_) hfields
  exact hp.mapM (fun f hf _ _ _ hp h => hp.declareField hg hf h) h

end Declarations

/-! ## Models -/

theorem keeps_facts {facts : List Fact}
    (hfits : ∀ fact ∈ facts, ∀ n ∈ fact.body.literals, Text.fitsSigned64 n = true) :
    Keeps v start (facts.forM fun fact => assertFact v fact.name fact.body) fun _ _ => True :=
  keeps_forM fun fact hfact => keeps_assertFact (hfits fact hfact)

theorem settled_encodeModel {m : Model} {names : NameSupply} {fieldTyping : Bool} {u : Unit}
    (hfits : m.LiteralsFit) (h : Returns (encodeModel fieldTyping m) ⟨.empty, names⟩ u q) :
    ∃ v, v.model = m ∧ Settled v names.variableCount q := by
  obtain ⟨v, r, hv, h⟩ := returns_bind.mp h
  obtain ⟨rfl, hr⟩ := settled_declareVocabulary hv
  refine ⟨v, rfl, ?_⟩
  have hrest : Keeps v names.variableCount (do
      forFields v.model (assertFieldMultiplicity v)
      v.model.facts.forM fun fact => assertFact v fact.name fact.body) fun _ _ => True :=
    (keeps_forFields fun _ _ _ _ => keeps_assertFieldMultiplicity).seq (keeps_facts hfits)
  obtain ⟨_, r', hsignatures, h⟩ := returns_bind.mp h
  obtain ⟨hr', _⟩ := keeps_assertSignatures hr hsignatures
  cases fieldTyping with
  | true =>
    have htyping : Keeps v names.variableCount (forFields v.model (assertFieldTyping v))
        fun _ _ => True := keeps_forFields fun _ _ _ _ => keeps_assertFieldTyping
    obtain ⟨hq, _⟩ := htyping.seq hrest hr'.settled h
    exact hq.settled
  | false =>
    obtain ⟨hq, _⟩ := hrest hr'.settled h
    exact hq.settled

end Encoding

end TupleLogic
