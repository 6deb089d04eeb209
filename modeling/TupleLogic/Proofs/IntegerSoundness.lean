import TupleLogic.Proofs.MeaningPreservation

/-! What the integer sorts must hold. A claim that a relation of integers has
an element is witnessed by elements of the integer sorts, and nothing in a
script says that these reach every integer. So a script speaks of all integers
exactly where they do: if a tuple of integers is missing, there is a model
whose script holds in a structure that restricts to no instance of it. -/

namespace TupleLogic.Encoding

open Relational Encoder

variable {v : Vocabulary} {p q : Progress} {scope : Scope}

/-! ## Claims about integers -/

/-- A claim about a relation of integers is only ever made of a tuple that an
element of the sort stands for. -/
theorem witnessed_intValues {c : TupleClaim} {expr : String} {e : Expr} {r : Encoded} {w : IntSort}
    (hw : w ∈ intSorts) (ht : HasColumns v.model e (List.replicate w.width .int))
    (hv : Declared v p.script) (hs : ScopeIn p.script scope)
    (h : Returns (witnessed expr c.term (encode v e scope .nested)) p r q)
    {f : Script} {α E : Type} {ι : α → E} {I : Instance α} {M : Structure E} {env : Env α}
    (hf : q.script.Extends f) (hM : Interprets v f ι I M) (hmatch : Matches ι M scope env)
    (htruth : r.Truth f M) :
    ∃ ns ∈ intValues M f w, c.property (ns.map (Cell.int (α := α))) (I.denote env e) := by
  have hcells : ∀ {p q : Progress} {xs ts ws}, Samples v (List.replicate w.width .int) p xs ts q →
      q.script.Extends f → M.Fits f xs ws → ∃ ns : List Int, ns.length = w.width ∧
        (Term.nary .tuple ts).eval f (M.assign xs ws) =
          .datum (.tuple ((ns.map Cell.int).map (cellDatum ι))) ∧
        ∀ n ∈ ns, [n] ∈ intValues M f unaryInts := by
    intro p q xs ts ws hsamples hqf hfit
    obtain ⟨cells, htypes, heval, hvalues⟩ := hsamples.sound hqf hM hfit
    obtain ⟨ns, hns, rfl⟩ := eq_map_int_of_types htypes
    exact ⟨ns, hns, by rw [Term.eval_tuple, heval], fun n hn => hvalues n (List.mem_map_of_mem hn)⟩
  obtain ⟨set, xs, ts, s, hset, hsamples, ⟨w', hw', hint, rfl, rfl⟩ | ⟨hpair, htriple, rfl, rfl⟩⟩ :=
    witnessed_returns ht hv hs h
  · have hwidth : w.width = w'.width := by simpa using congrArg List.length hint
    obtain rfl := List.inj_on_of_nodup_map nodup_widths hw hw' hwidth
    have hqf := (s.withVariable_grows (.named w.sort)).extension.trans hf
    obtain ⟨_, hfit, hclaim⟩ := truth_single.mp htruth
    obtain ⟨ws, u, hu, rfl, hws⟩ := fits_companion hf hfit
    obtain ⟨ns, _, htuple, _⟩ := hcells hsamples hqf hws
    obtain ⟨d, hd, hiff⟩ := holds_companion hw hv hsamples hqf (below_claim (c := c) hset hsamples hqf)
    rw [M.assign_append hws.length_eq] at hclaim
    obtain ⟨hclaim, hvalue⟩ := (hiff M ws u).mp hclaim
    refine ⟨ns, ⟨d, hd, u, hu, ?_⟩, (holds_claim hset hsamples hqf hM hmatch htuple).mp hclaim⟩
    rw [hvalue, htuple, map_cellDatum_int]
    rfl
  · obtain ⟨ws, hws, hclaim⟩ := truth_single.mp htruth
    obtain ⟨ns, hns, htuple, hvalues⟩ := hcells hsamples hf hws
    refine ⟨ns, ?_, (holds_claim hset hsamples hf hM hmatch htuple).mp hclaim⟩
    -- Pairs and triples have companions, so this is a single integer.
    simp only [intSorts, List.mem_cons, List.not_mem_nil, or_false] at hw
    rcases hw with rfl | rfl | rfl
    · obtain ⟨n, rfl⟩ := List.length_eq_one_iff.mp hns
      exact hvalues n (List.mem_singleton.mpr rfl)
    · exact absurd rfl hpair
    · exact absurd rfl htriple

/-- The elements of each integer sort can be chosen for themselves. -/
theorem intValues_realize_union {α : Type} {I : Instance α} {s f : Script} (hv : Declared v s)
    (hf : s.Extends f) {V : IntSort → Set (List Int)}
    (hV : ∀ w ∈ intSorts, ∀ ns ∈ V w, ns.length = w.width) {w : IntSort} (hw : w ∈ intSorts) :
    intValues (realize v I {ns | ∃ w ∈ intSorts, ns ∈ V w}) f w = V w := by
  rw [intValues_realize hv hf hw]
  ext ns
  constructor
  · rintro ⟨⟨w', hw', hns⟩, hlen⟩
    have hwidth := hlen.symm.trans (hV w' hw' ns hns)
    rwa [List.inj_on_of_nodup_map nodup_widths hw hw' hwidth]
  · intro hns
    exact ⟨⟨w, hw, hns⟩, hV w hw ns hns⟩

/-! ## A model that a gap deceives -/

/-- A signature with one field of integers. -/
def gapModel (w : IntSort) (facts : List Fact) : Model where
  signatures := [⟨"A", .top, [], [⟨"f", List.replicate w.width .int, .set⟩]⟩]
  facts := facts

/-- The integers of the field. -/
def gapIntegers : Expr := .binary .join (.sig ⟨0⟩) (.field ⟨⟨0⟩, 0⟩)

def noIntegers : Fact := ⟨"empty", .unary .not (.unary .some gapIntegers)⟩

/-- One atom, with one tuple of integers in its field. -/
def gapInstance (ns : List Int) : Instance Unit where
  sig _ := Set.univ
  field id := {t | id = ⟨⟨0⟩, 0⟩ ∧ t = .atom () :: ns.map .int}

theorem gapModel_field {w : IntSort} {facts : List Fact} {id : FieldId} {f : Field}
    (h : (gapModel w facts).field? id = some f) :
    id = ⟨⟨0⟩, 0⟩ ∧ f = ⟨"f", List.replicate w.width .int, .set⟩ := by
  obtain ⟨⟨_ | i⟩, _ | j⟩ := id <;> cases h
  exact ⟨rfl, rfl⟩

theorem gapModel_signature {w : IntSort} {facts : List Fact} {id : SigId} {g : Signature}
    (h : (gapModel w facts).signature? id = some g) : id = ⟨0⟩ ∧ g.parent = .top ∧ g.marks = [] := by
  obtain ⟨_ | i⟩ := id <;> cases h
  exact ⟨rfl, rfl, rfl⟩

theorem hasColumns_gapIntegers {w : IntSort} (hw : w ∈ intSorts) (facts : List Fact) :
    HasColumns (gapModel w facts) gapIntegers (List.replicate w.width .int) := by
  have hfield : HasColumns (gapModel w facts) (.field ⟨⟨0⟩, 0⟩)
      (.atom :: List.replicate w.width .int) := by
    have hf : (gapModel w facts).field? ⟨⟨0⟩, 0⟩ = some _ := rfl
    have h := HasColumns.field hf
    rwa [List.map_replicate] at h
  have hne : [] ++ List.replicate w.width ColumnType.int ≠ [] := by
    rw [List.nil_append, ne_eq, List.replicate_eq_nil_iff]
    exact intSorts_width_ne hw
  exact .join (.sig ⟨0⟩) hfield hne

theorem satisfies_gapInstance {w : IntSort} {ns : List Int} (hns : ns.length = w.width) :
    (gapInstance ns).Satisfies (gapModel w []) where
  parents hg := by
    unfold Instance.WithinParent
    rw [(gapModel_signature hg).2.1]
    trivial
  abstract hg habstract := by
    rw [Signature.has, (gapModel_signature hg).2.2] at habstract
    cases habstract
  disjoint := by
    rintro a b ⟨hne, g, h, hg, hh, _⟩
    exact absurd ((gapModel_signature hg).1.trans (gapModel_signature hh).1.symm) hne
  marks hg mark _ hhas := by
    rw [Signature.has, (gapModel_signature hg).2.2] at hhas
    cases hhas
  columns := by
    rintro id f hf t ⟨_, rfl⟩
    obtain ⟨rfl, rfl⟩ := gapModel_field hf
    refine ⟨(), trivial, ns.map .int, rfl, ?_⟩
    rw [← hns, ← List.map_const', List.forall₂_map_left_iff, List.forall₂_map_right_iff]
    exact List.forall₂_same.mpr fun _ _ => trivial
  multiplicities hf _ _ := by
    obtain ⟨rfl, rfl⟩ := gapModel_field hf
    trivial
  facts := nofun

/-- All but the fact holds in the instance. -/
theorem structureCondition_gapInstance {w : IntSort} {ns : List Int} (hns : ns.length = w.width)
    (facts : List Fact) : structureCondition (gapModel w facts) Unit (gapInstance ns) := by
  have hparents : ∀ {child parent}, (gapModel w []).Extends child parent →
      ∃ g, (gapModel w []).signature? parent = some g := by
    rintro child parent ⟨g, hg, hparent⟩
    rw [(gapModel_signature hg).2.1] at hparent
    cases hparent
  obtain ⟨hsigs, hcolumns, hmults, _⟩ := (satisfies_iff hparents).mp (satisfies_gapInstance hns)
  exact ⟨hsigs, hcolumns, hmults⟩

/-- The fact is asserted as the negation of what claims an element. -/
theorem assertFact_noIntegers {u : Unit}
    (h : Returns (assertFact v noIntegers.name noIntegers.body) p u q) :
    ∃ r t s, Returns (encode v (.unary .some gapIntegers) [] .nested) p r s ∧ r.close = .ok t ∧
      q = { s with script := s.script.addAssertion (some noIntegers.name) (.not t) } := by
  simp only [assertFact, returns_bind, returns_formula, returns_assertTerm] at h
  obtain ⟨_, s, ⟨_, hr, hc⟩, rfl⟩ := h
  rw [noIntegers, encode, unaryExpr] at hr
  simp only [returns_bind, returns_pure, returns_formula] at hr
  obtain ⟨t, _, ⟨r, hr, ht⟩, rfl, rfl⟩ := hr
  obtain rfl := Except.ok.inj hc
  exact ⟨r, t, s, hr, ht, rfl⟩

theorem gapIntegers_of_mem {ns : List Int} {t : List (Cell Unit)}
    (h : t ∈ (gapInstance ns).denote [] gapIntegers) : t = ns.map .int := by
  obtain ⟨_, _, _, ht⟩ := mem_join_ofAtoms.mp h
  exact (List.cons.inj ht).2

theorem field_gapInstance_finite (ns : List Int) (id : FieldId) :
    ((gapInstance ns).field id).Finite :=
  (Set.finite_singleton (Cell.atom () :: ns.map .int)).subset fun _ ht => ht.2

/-- Nothing is counted. -/
theorem factsFit_gapModel {w : IntSort} {ns : List Int} :
    (gapInstance ns).FactsFit (gapModel w [noIntegers]) :=
  List.forall_mem_singleton.mpr nofun

/-- If no element stands for the tuple of integers, then the script says of the
field that holds it that it holds none. -/
theorem models_gapModel {w : IntSort} (hw : w ∈ intSorts) {V : IntSort → Set (List Int)}
    (hV : ∀ w ∈ intSorts, ∀ ns ∈ V w, ns.length = w.width) {ns : List Int}
    (hns : ns.length = w.width) (hgap : ns ∉ V w) {names names' : NameSupply} {s : Script}
    (h : (gapModel w [noIntegers]).encode {} names = (.ok s, names')) :
    ∃ M : Structure (Unit ⊕ List Int),
      Represents M s (gapModel w [noIntegers]) Sum.inl (gapInstance ns) ∧ M.Sorted s ∧
        (∀ w ∈ intSorts, intValues M s w = V w) ∧ M.Models s s.assertions := by
  obtain ⟨_, u, q, hrun, rfl⟩ := encode_returns h
  have hint : ∀ fid fd, (gapModel w [noIntegers]).field? fid = some fd → fd.multiplicity ≠ .set →
      fd.usesInt = true → False := by
    intro fid fd hfd hset _
    obtain ⟨_, rfl⟩ := gapModel_field hfd
    exact hset rfl
  obtain ⟨v, start, mid, new, _, hv, _, hnew, hfacts⟩ := encodeModel_structure hint hrun
  obtain ⟨_, _, hfact, hnil⟩ := returns_bind.mp hfacts
  obtain ⟨_, rfl⟩ := returns_pure.mp hnil
  obtain ⟨r, t, last, hr, hclose, rfl⟩ := assertFact_noIntegers hfact
  have hmid := hv.declared.extend hnew.extension
  have hcolumns : HasColumns v.model gapIntegers (List.replicate w.width .int) :=
    hv.model ▸ hasColumns_gapIntegers hw _
  have hsome := some_meaning hcolumns mid r last hmid (scopeIn_nil _) hr
  have hlast := last.script.extends_addAssertion (some noIntegers.name) (.not t)
  have hmidf := hsome.grows.extension.trans hlast
  have hf := hnew.extension.trans hmidf
  -- Everything but the fact is asserted about the atoms, so that it can be made true as it is.
  have htyped : ∀ {id fd t}, (gapModel w [noIntegers]).field? id = some fd →
      t ∈ (gapInstance ns).field id → t.map Cell.type = fieldTypes fd :=
    fun hfd ht => (satisfies_gapInstance hns).typed (m := gapModel w []) hfd ht
  have hM : Interprets v (last.script.addAssertion (some noIntegers.name) (.not t)) Sum.inl
      (gapInstance ns) (realize v (gapInstance ns) {ns | ∃ w ∈ intSorts, ns ∈ V w}) :=
    interprets_realize hv htyped
  obtain ⟨N, hMN, hsorted, hmodels⟩ := hnew.complete hmidf hM (field_gapInstance_finite ns)
    (fun hf => hf.elim) (sorted_realize hv htyped hf) (hv.model ▸ factsFit_gapModel)
    (structureCondition_gapInstance hns _)
  have hN := hM.agrees hv.declared hf hMN
  have hvalues := fun w hw => (intValues_agrees hv.declared hf hMN hw).trans
    (intValues_realize_union hv.declared hf hV (w := w) hw)
  have hsortedf : N.SortedBelow _ last.script.arena.size := hsorted.addsVariables hsome.grows hlast
  refine ⟨N, hN.represents hv hf, hsortedf, hvalues, ?_⟩
  change N.Models _ (last.script.assertions ++ [_])
  rw [hsome.grows.assertions, hnew.assertions, Structure.models_append, Structure.models_append,
    Structure.Models, Structure.Models, Structure.Models, List.forall_mem_singleton]
  refine ⟨⟨hN.models_builtins hv hf, hmodels⟩, ?_⟩
  rw [Term.holds_not, Encoded.close_holds (hsome.chain hlast) hclose]
  intro htruth
  obtain ⟨ns', hns', hmem⟩ := witnessed_intValues (c := .member) hw hcolumns hmid (scopeIn_nil _) hr hlast
    hN .nil htruth
  rw [hvalues w hw] at hns'
  have heq := gapIntegers_of_mem hmem
  rw [List.map_injective_iff.mpr (fun _ _ h => Cell.int.inj h) heq] at hns'
  exact hgap hns'

/-- Any instance of such a structure has the integers too. -/
theorem not_satisfies_gapModel {w : IntSort} {ns : List Int} {E : Type} {M : Structure E}
    {s : Script} {ι : Unit → E} (h : Represents M s (gapModel w [noIntegers]) ι (gapInstance ns))
    {I : Instance (M.carrier "Atom")}
    (hI : Represents M s (gapModel w [noIntegers]) Subtype.val I) :
    ¬ I.Satisfies (gapModel w [noIntegers]) := by
  intro hsat
  refine hsat.facts noIntegers (List.mem_singleton.mpr rfl) ⟨ns.map .int, ?_⟩
  have hfield : (gapModel w [noIntegers]).field? ⟨⟨0⟩, 0⟩ = some _ := rfl
  obtain ⟨d, hd, hm⟩ := h.field rfl hfield
  obtain ⟨d', hd', hm'⟩ := hI.field rfl hfield
  obtain rfl : d = d' := Option.some.inj (hd.symm.trans hd')
  have hmem : .atom () :: ns.map .int ∈ (gapInstance ns).field ⟨⟨0⟩, 0⟩ := ⟨rfl, rfl⟩
  rw [← tuple_mem_relationValue h.injective, ← hm, hm'] at hmem
  obtain ⟨_, ⟨t, ht, heq⟩, hdatum⟩ := hmem
  rw [Datum.tuple.injEq] at hdatum
  obtain ⟨a, ha, rest, rfl, _⟩ := hsat.columns hfield t ht
  have hrest : rest = ns.map .int := by
    rw [← heq, List.map_cons, List.map_cons, List.cons.injEq, map_cellDatum_int,
      ← map_cellDatum_int (ι := Subtype.val)] at hdatum
    exact List.map_injective_iff.mpr (cellDatum_injective hI.injective) hdatum.2
  exact mem_join_ofAtoms.mpr ⟨a, ha, hrest ▸ ht⟩

/-! ## Soundness -/

/-- The relations of the fields are finite. -/
def FiniteFields {E : Type} (M : Structure E) (s : Script) (m : Model) : Prop :=
  ∀ {id : FieldId} {g : Signature} {f : Field} {d : DeclId}, m.signature? id.sig = some g →
    m.field? id = some f → s.lookup (fieldName g f) = some d → (M.meaning d []).elements.Finite

theorem FiniteFields.instanceOf {E : Type} {M : Structure E} {s : Script} {m : Model}
    (h : FiniteFields M s m) (id : FieldId) : ((instanceOf M s m).field id).Finite := by
  rcases Set.eq_empty_or_nonempty ((Encoding.instanceOf M s m).field id) with hempty | ⟨t, ht⟩
  · rw [hempty]
    exact Set.finite_empty
  · obtain ⟨g, f, d, hg, hf, hd, _⟩ := ht
    have hinj : Function.Injective fun t : List (Cell (M.carrier "Atom")) =>
        Datum.tuple (t.map (cellDatum Subtype.val)) := fun _ _ h =>
      List.map_injective_iff.mpr (cellDatum_injective Subtype.val_injective) (Datum.tuple.inj h)
    refine ((h hg hf hd).preimage hinj.injOn).subset ?_
    rintro t ⟨g', f', d', hg', hf', hd', ht⟩
    cases hg.symm.trans hg'
    cases hf.symm.trans hf'
    cases hd.symm.trans hd'
    exact ht

/-- Every structure of a script, whose integer sorts stand for the tuples `V`,
restricts to an instance of the model, for all models that involve integers. -/
def SoundAt (V : IntSort → Set (List Int)) : Prop :=
  ∀ {m : Model} {names names' : NameSupply} {s : Script}, m.WellTyped → m.InvolvesInt →
    m.encode {} names = (.ok s, names') → ∀ {E : Type} {M : Structure E}, M.Sorted s →
    (M.carrier "Atom").Finite → (M.carrier "Atom").Nonempty → FiniteFields M s m →
    (∀ w ∈ intSorts, intValues M s w = V w) → M.Models s s.assertions →
      ∃ I : Instance (M.carrier "Atom"), Represents M s m Subtype.val I ∧ I.Satisfies m

variable {V : IntSort → Set (List Int)}

theorem soundAt_of_onto (hV : ∀ w ∈ intSorts, V w = {ns | ns.length = w.width}) : SoundAt V := by
  intro m names names' s hm hint h E M hsorted hfinite hne hfields hvalues hmodels
  obtain ⟨v, start, q, new, hv, rfl, hnew⟩ := encode_ok hm h
  have honto : Onto q.script M := by
    intro w hw d hd ns hns
    have hmem : ns ∈ intValues M q.script w := by
      rw [hvalues w hw, hV w hw]
      exact hns
    obtain ⟨d', hd', hu⟩ := hmem
    cases hd.symm.trans hd'
    exact hu
  obtain ⟨hM, hsat⟩ := hnew.restriction hv hsorted hfinite hne hfields.instanceOf (fun _ => honto)
    hmodels
  exact ⟨_, hM.represents hv hnew.extension, hsat⟩

theorem wellTyped_gapModel {w : IntSort} (hw : w ∈ intSorts) :
    (gapModel w [noIntegers]).WellTyped :=
  List.forall_mem_singleton.mpr (.not (.multiplicity (by simp) (hasColumns_gapIntegers hw _)))

theorem involvesInt_gapModel {w : IntSort} (hw : w ∈ intSorts) :
    (gapModel w [noIntegers]).InvolvesInt := by
  refine .inl ⟨⟨⟨0⟩, 0⟩, _, rfl, List.contains_iff_mem.mpr ?_⟩
  exact List.mem_replicate.mpr ⟨intSorts_width_ne hw, rfl⟩

/-- A tuple that no element stands for makes scripts unsound. -/
theorem not_soundAt_of_gap (hV : ∀ w ∈ intSorts, ∀ ns ∈ V w, ns.length = w.width) {w : IntSort}
    (hw : w ∈ intSorts) {ns : List Int} (hns : ns.length = w.width) (hgap : ns ∉ V w) :
    ¬ SoundAt V := by
  intro h
  have hok : ∀ w ∈ intSorts, ((gapModel w [noIntegers]).encode {} {}).1.isOk := by decide +kernel
  obtain ⟨s, names, hs⟩ := encode_of_isOk (hok w hw)
  obtain ⟨M, hM, hsorted, hvalues, hmodels⟩ := models_gapModel hw hV hns hgap hs
  have hfields : FiniteFields M s (gapModel w [noIntegers]) := by
    intro id g f d hg hf hd
    obtain ⟨d', hd', hm⟩ := hM.field hg hf
    cases hd.symm.trans hd'
    rw [hm]
    exact finite_relationValue (field_gapInstance_finite ns id)
  obtain ⟨I, hI, hsat⟩ := h (wellTyped_gapModel hw) (involvesInt_gapModel hw) hs hsorted
    (hM.atoms ▸ Set.finite_range _) (hM.atoms ▸ Set.range_nonempty _) hfields hvalues hmodels
  exact not_satisfies_gapModel hM hI hsat

/-- Scripts are sound where the integer sorts reach all integers, and only
there. -/
theorem soundAt_iff_values_onto (hV : ∀ w ∈ intSorts, ∀ ns ∈ V w, ns.length = w.width) :
    SoundAt V ↔ ∀ w ∈ intSorts, V w = {ns | ns.length = w.width} := by
  refine ⟨fun h w hw => Set.Subset.antisymm (hV w hw) fun ns hns => ?_, soundAt_of_onto⟩
  by_contra hgap
  exact not_soundAt_of_gap hV hw hns hgap h

/-- One element for each sort, which stands for zeros, is not enough. -/
theorem soundAt_iff_values_onto_zeros : (∀ w ∈ intSorts, ∀ ns ∈ ({List.replicate w.width 0} :
    Set (List Int)), ns.length = w.width) ∧ ¬ SoundAt fun w => {List.replicate w.width 0} := by
  have hV : ∀ w ∈ intSorts, ∀ ns ∈ ({List.replicate w.width 0} : Set (List Int)),
      ns.length = w.width := by
    rintro w _ ns rfl
    exact List.length_replicate
  refine ⟨hV, fun h => ?_⟩
  have hones : [1] ∈ ({ns | ns.length = unaryInts.width} : Set (List Int)) := rfl
  rw [← (soundAt_iff_values_onto hV).mp h unaryInts (by simp [intSorts])] at hones
  cases hones

end TupleLogic.Encoding
