import TupleLogic.Proofs.Accumulation
import TupleLogic.Proofs.MeaningPreservation

/-! The columns of fields. Each field has one assertion about its columns: that it
lies in a product of relations or, where a column holds integers, which are in no
relation, that each tuple has its other components where they belong. In a structure
with the built-in relations both say the same of the tuples of the field. -/

namespace TupleLogic.Encoding

open Relational Encoder

/-! ## Two forms -/

/-- The product of a signature with one relation for each column. -/
def IsProductTyping (owner d : DeclId) (fd : Field) (t : Term) : Prop :=
  ∃ factors : List Term, factors.length = fd.columns.length ∧
    t = .subset (.ref d) (factors.foldl .product (.ref owner))

/-- A variable for the signature and one for each column, with guards on them. -/
def IsGuardedTyping (d : DeclId) (fd : Field) (t : Term) : Prop :=
  ∃ vars guards, vars.length = fd.columns.length + 1 ∧
    t = .quantified .all vars
      (.implies (.member (.nary .tuple (vars.map .ref)) (.ref d)) (.conj guards))

/-- What the assertion about the columns looks like. -/
def HasTypingForm (owner d : DeclId) (fd : Field) (t : Term) : Prop :=
  if .int ∈ fd.columns then IsGuardedTyping d fd t else IsProductTyping owner d fd t

section Forms

variable {v : Vocabulary} {p q : Progress} {owner d : DeclId} {fd : Field} {t : Term}

theorem productBound_form {columns : List Column} {acc : Term}
    (h : Returns (columns.foldlM (fun acc c => do return .product acc (← columnRelation v c)) acc)
      p t q) :
    ∃ factors : List Term, factors.length = columns.length ∧ t = factors.foldl .product acc := by
  induction columns generalizing acc p with
  | nil =>
    obtain ⟨rfl, _⟩ := returns_pure.mp h
    exact ⟨[], rfl, rfl⟩
  | cons c columns ih =>
    rw [List.foldlM_cons] at h
    simp only [returns_bind, returns_pure] at h
    obtain ⟨_, _, ⟨u, _, _, rfl, _⟩, h⟩ := h
    obtain ⟨factors, hlen, rfl⟩ := ih h
    exact ⟨u :: factors, by rw [List.length_cons, hlen, List.length_cons], rfl⟩

theorem productTyping_form (h : Returns (productTyping v (.ref owner) (.ref d) fd.columns) p t q) :
    IsProductTyping owner d fd t := by
  simp only [productTyping, returns_bind, returns_pure] at h
  obtain ⟨bound, _, hbound, rfl, _⟩ := h
  obtain ⟨factors, hlen, rfl⟩ := productBound_form hbound
  exact ⟨factors, hlen, rfl⟩

theorem length_of_returns_mapM {α β : Type} {f : α → Encoder β} {xs : List α} {ys : List β}
    (h : Returns (xs.mapM f) p ys q) : ys.length = xs.length := by
  induction xs generalizing p ys with
  | nil =>
    obtain ⟨rfl, _⟩ := returns_mapM_nil.mp h
    rfl
  | cons x xs ih =>
    obtain ⟨y, _, ys', _, hxs, rfl⟩ := returns_mapM_cons.mp h
    rw [List.length_cons, ih hxs, List.length_cons]

theorem guardedTyping_form (h : Returns (guardedTyping v (.ref owner) (.ref d) fd.columns) p t q) :
    IsGuardedTyping d fd t := by
  simp only [guardedTyping, returns_bind, returns_liftTerm] at h
  obtain ⟨x, _, _, _, _, _, typed, _, htyped, _, _, ⟨htuple, rfl⟩, ht, rfl⟩ := h
  cases htuple
  cases ht
  refine ⟨_, _, ?_, rfl⟩
  rw [List.length_cons, List.length_map, length_of_returns_mapM htyped]

end Forms

/-! ## Fields one by one -/

/-- A field with its signature. -/
structure FieldEntry where
  id : FieldId
  signature : Signature
  field : Field

/-- All fields, in the order in which they are encoded. -/
def fieldEntries (m : Model) : List FieldEntry :=
  m.numbered.flatMap fun x => x.2.fields.zipIdx.map fun y => ⟨⟨x.1, y.2⟩, x.2, y.1⟩

theorem mem_fieldEntries {m : Model} {x : FieldEntry} : x ∈ fieldEntries m ↔
    m.signature? x.id.sig = some x.signature ∧ m.field? x.id = some x.field := by
  obtain ⟨⟨id, index⟩, g, fd⟩ := x
  simp only [fieldEntries, List.mem_flatMap, List.mem_map]
  constructor
  · rintro ⟨⟨id, g⟩, hg, ⟨fd, index⟩, hfd, heq⟩
    cases heq
    exact ⟨mem_numbered.mp hg, mem_fields.mpr ⟨_, hg, hfd⟩⟩
  · rintro ⟨hg, hfd⟩
    rw [Model.field?, hg] at hfd
    exact ⟨(id, g), mem_numbered.mpr hg, (fd, index), List.mem_zipIdx_iff_getElem?.mpr hfd, rfl⟩

theorem forM_flatMap {α β : Type} (g : α → List β) (f : β → Encoder Unit) (xs : List α) :
    (xs.flatMap g).forM f = xs.forM fun x => (g x).forM f := by
  induction xs with
  | nil => rfl
  | cons x xs ih =>
    rw [List.flatMap_cons, List.forM_eq_forM, List.forM_append]
    exact congrArg (forM (g x) f >>= fun _ => ·) ih

theorem forFields_eq (m : Model) (assertion : SigId → Signature → Nat → Field → Encoder Unit) :
    forFields m assertion = (fieldEntries m).forM fun x =>
      assertion x.id.sig x.signature x.id.index x.field := by
  rw [fieldEntries, forM_flatMap]
  simp only [List.forM_eq_forM, List.forM_map]
  rfl

section Fields

variable {v : Vocabulary} {p q r : Progress} {x : FieldEntry} {owner d : DeclId} {t : Term}

/-- The assertion is about the columns of the field, and says that the field has
what they allow. -/
structure TypesField (v : Vocabulary) (final : Script) (x : FieldEntry) (a : Assertion) :
    Prop where
  name : a.name = some (x.signature.label ++ " <: " ++ x.field.label)
  form : ∃ owner d, v.signatures[x.id.sig.index]? = some owner ∧ v.field? x.id = some d ∧
    HasTypingForm owner d x.field a.formula
  truth : ∀ {α E : Type} {ι : α → E} {I : Instance α} {M : Structure E},
    Interprets v final ι I M → (a.formula.Holds final M ↔ columnsCondition x.id x.field α I)

/-- One assertion was added, and it is about the columns of the field. -/
def AddsTyping (v : Vocabulary) (x : FieldEntry) (p q : Progress) : Prop :=
  p.script.Extends q.script ∧ ∃ a, q.script.assertions = p.script.assertions ++ [a] ∧
    ∀ {final : Script}, q.script.Extends final → TypesField v final x a

theorem SaysColumns.adds (hcolumns : SaysColumns v x.id x.field p t r)
    (howner : v.signatures[x.id.sig.index]? = some owner) (hd : v.field? x.id = some d)
    (hform : HasTypingForm owner d x.field t) {u : Unit}
    (h : Returns (assertTerm (some (x.signature.label ++ " <: " ++ x.field.label)) t) r u q) :
    AddsTyping v x p q := by
  obtain rfl := returns_assertTerm.mp h
  have hrq := r.script.extends_addAssertion
    (some (x.signature.label ++ " <: " ++ x.field.label)) t
  refine ⟨hcolumns.grows.extension.trans hrq,
    ⟨some (x.signature.label ++ " <: " ++ x.field.label), t⟩, ?_, fun hfinal => ?_⟩
  · rw [← hcolumns.grows.assertions]
    rfl
  · exact ⟨rfl, ⟨owner, d, howner, hd, hform⟩, fun hM => hcolumns.truth (hrq.trans hfinal) hM⟩

theorem assertFieldTyping_returns {u : Unit} (hv : Declared v p.script)
    (hfd : v.model.field? x.id = some x.field)
    (h : Returns (assertFieldTyping v x.id.sig x.signature x.id.index x.field) p u q) :
    AddsTyping v x p q := by
  simp only [assertFieldTyping, returns_bind, returns_sigRelation, returns_fieldRelation] at h
  obtain ⟨_, _, ⟨owner, howner, rfl, rfl⟩, _, _, ⟨d, hd, rfl, rfl⟩, h⟩ := h
  split at h
  · rename_i hint
    obtain ⟨t, r, ht, h⟩ := returns_bind.mp h
    have hform : HasTypingForm owner d x.field t := by
      rw [HasTypingForm, if_pos (List.contains_iff_mem.mp hint)]
      exact guardedTyping_form ht
    exact (guardedTyping_returns hv hfd howner hd ht).adds howner hd hform h
  · rename_i hint
    obtain ⟨t, r, ht, h⟩ := returns_bind.mp h
    have hform : HasTypingForm owner d x.field t := by
      rw [HasTypingForm, if_neg fun hmem => hint (List.contains_iff_mem.mpr hmem)]
      exact productTyping_form ht
    exact (productTyping_returns hv howner hd ht).adds howner hd hform h

theorem assertFieldTypings_returns {xs : List FieldEntry} {u : Unit} (hv : Declared v p.script)
    (hxs : ∀ x ∈ xs, v.model.field? x.id = some x.field)
    (h : Returns (xs.forM fun x =>
      assertFieldTyping v x.id.sig x.signature x.id.index x.field) p u q) :
    p.script.Extends q.script ∧ ∃ typing, q.script.assertions = p.script.assertions ++ typing ∧
      ∀ {final : Script}, q.script.Extends final → List.Forall₂ (TypesField v final) xs typing := by
  induction xs generalizing p with
  | nil =>
    obtain rfl := returns_forM_nil.mp h
    exact ⟨.refl _, [], (List.append_nil _).symm, fun _ => .nil⟩
  | cons x xs ih =>
    obtain ⟨hx, hxs⟩ := List.forall_mem_cons.mp hxs
    obtain ⟨r, hr, hrest⟩ := returns_forM_cons.mp h
    obtain ⟨hpr, a, ha, htypes⟩ := assertFieldTyping_returns hv hx hr
    obtain ⟨hrq, typing, htyping, hall⟩ := ih (hv.extend hpr) hxs hrest
    refine ⟨hpr.trans hrq, a :: typing, ?_, fun hfinal => .cons (htypes (hrq.trans hfinal))
      (hall hfinal)⟩
    rw [htyping, ha, List.append_assoc, List.singleton_append]

end Fields

/-! ## Structures -/

/-- The first component is in the signature, and the component of each column that is
a signature is in that signature. -/
structure Placed {E : Type} (M : Structure E) (s : Script) (m : Model) (owner : SigId)
    (columns : List Column) (ds : List (Datum E)) : Prop where
  owner : ∃ d, ds[0]? = some d ∧ .tuple [d] ∈ signatureValue M s m owner
  columns : ∀ (i : Nat) (id : SigId), columns[i]? = some (.sig id) →
    ∃ d, ds[i + 1]? = some d ∧ .tuple [d] ∈ signatureValue M s m id

section Structures

variable {E : Type} {M : Structure E} {s : Script} {m : Model}

theorem inColumn_iff {c : Column} {cell : Cell (M.carrier "Atom")} (htype : cell.type = c.type) :
    (instanceOf M s m).InColumn c cell ↔ ∀ id, c = .sig id →
      .tuple [cellDatum Subtype.val cell] ∈ signatureValue M s m id := by
  cases c with
  | sig id =>
    cases cell with
    | int n => cases htype
    | atom a =>
      constructor
      · intro h id' hid
        cases hid
        exact h
      · exact fun h => h id rfl
  | univ =>
    cases cell with
    | int n => cases htype
    | atom a => simp [Instance.InColumn]
  | int =>
    cases cell with
    | int n => simp [Instance.InColumn]
    | atom a => cases htype

theorem forall₂_inColumn_iff {columns : List Column} {cells : List (Cell (M.carrier "Atom"))}
    (htypes : cells.map Cell.type = columns.map Column.type) :
    List.Forall₂ (instanceOf M s m).InColumn columns cells ↔
      ∀ (i : Nat) (id : SigId), columns[i]? = some (.sig id) →
        ∃ d, (cells.map (cellDatum Subtype.val))[i]? = some d ∧
          .tuple [d] ∈ signatureValue M s m id := by
  induction columns generalizing cells with
  | nil =>
    rw [List.map_eq_nil_iff.mp htypes]
    simp
  | cons c columns ih =>
    obtain ⟨cell, cells, rfl, hcell, hcells⟩ := List.map_eq_cons_iff.mp htypes
    rw [List.forall₂_cons, inColumn_iff hcell, ih hcells]
    constructor
    · rintro ⟨hfirst, hrest⟩ i id hi
      cases i with
      | zero => exact ⟨_, rfl, hfirst id (Option.some.inj hi)⟩
      | succ i => exact hrest i id hi
    · intro h
      refine ⟨fun id hid => ?_, fun i id hi => h (i + 1) id hi⟩
      obtain ⟨d, hd, hmem⟩ := h 0 id (congrArg some hid)
      obtain rfl := Option.some.inj hd
      exact hmem

/-- What the columns of a field say of its instance, said of the tuples of its
relation. -/
theorem columnsCondition_iff_placed {v : Vocabulary} {x : FieldEntry} {d : DeclId}
    (hM : Interprets v s Subtype.val (instanceOf M s m) M) (hfd : v.model.field? x.id = some x.field)
    (hd : v.field? x.id = some d) : columnsCondition x.id x.field _ (instanceOf M s m) ↔
      ∀ ds, .tuple ds ∈ (M.meaning d []).elements →
        Placed M s m x.id.sig x.field.columns ds := by
  rw [columnsCondition_iff_exists, hM.field hd]
  constructor
  · intro h ds hds
    obtain ⟨t, ht, rfl⟩ := TermValue.mem_elements_ofTuples.mp hds
    obtain ⟨a, ha, rest, rfl, hrest⟩ := h t ht
    exact ⟨⟨_, rfl, ha⟩, (forall₂_inColumn_iff (types_of_inColumns hrest)).mp hrest⟩
  · intro h t ht
    obtain ⟨howner, hcolumns⟩ := h _ (TermValue.mem_elements_ofTuples.mpr ⟨t, ht, rfl⟩)
    obtain ⟨cell, cells, rfl, hcell, hcells⟩ := List.map_eq_cons_iff.mp (hM.typed hfd ht)
    cases cell with
    | int n => cases hcell
    | atom a =>
      obtain ⟨d, hd, hmem⟩ := howner
      obtain rfl := Option.some.inj hd
      exact ⟨a, hmem, cells, rfl, (forall₂_inColumn_iff hcells).mpr hcolumns⟩

/-- The assertion is named after the field and has one of the two forms, and it is true
in a structure with the built-in relations exactly if every tuple of the field has its
components where they belong. -/
structure TypesTuples (s : Script) (m : Model) (x : FieldEntry) (a : Assertion) : Prop where
  name : a.name = some (x.signature.label ++ " <: " ++ x.field.label)
  form : ∃ owner d, s.lookup (relationName x.signature.label) = some owner ∧
    s.lookup (fieldName x.signature x.field) = some d ∧ HasTypingForm owner d x.field a.formula
  truth : ∀ {E : Type} {M : Structure E}, M.Sorted s → M.Models s builtinScript.assertions →
    (a.formula.Holds s M ↔ ∀ ds, .tuple ds ∈ fieldValue M s m x.id →
      Placed M s m x.id.sig x.field.columns ds)

theorem TypesField.tuples {v : Vocabulary} {p : Progress} (hdeclared : DeclaresVocabulary m v p)
    (hp : p.script.Extends s) {x : FieldEntry} (hx : x ∈ fieldEntries m) {a : Assertion}
    (h : TypesField v s x a) : TypesTuples s m x a := by
  obtain rfl := hdeclared.model
  obtain ⟨hg, hfd⟩ := mem_fieldEntries.mp hx
  obtain ⟨owner, d, howner, hd, hform⟩ := h.form
  obtain ⟨owner', howner', hlookup⟩ := hdeclared.signature_relation hg
  obtain rfl := Option.some.inj (howner.symm.trans howner')
  obtain ⟨d', hd', hlookup'⟩ := hdeclared.field_relation hg hfd
  obtain rfl := Option.some.inj (hd.symm.trans hd')
  refine ⟨h.name, ⟨owner, d, hp.lookup hlookup, hp.lookup hlookup', hform⟩,
    fun {E M} hM hbuiltin => ?_⟩
  have hinterprets := interprets_of_builtins hdeclared hp hM (hdeclared.assertions ▸ hbuiltin)
  rw [h.truth hinterprets, columnsCondition_iff_placed hinterprets hfd hd,
    fieldValue_eq hg hfd (hp.lookup hlookup')]

/-- After the built-in assertions and those about signatures comes one assertion for
each field, which says of the tuples of the field what its columns say. -/
theorem encode_types_fields {settings : Settings} {names names' : NameSupply}
    (htyping : settings.fieldTyping = true) (h : m.encode settings names = (.ok s, names')) :
    ∃ signatures typing rest,
      s.assertions = builtinScript.assertions ++ signatures ++ typing ++ rest ∧
      List.Forall₂ (TypesTuples s m) (fieldEntries m) typing := by
  obtain ⟨u, hrun⟩ := returns_of_encode h
  rw [htyping] at hrun
  obtain ⟨v, n, start, hdeclared, hv, hstart, hasserts⟩ := encodeModel_asserts hrun
  obtain rfl := hdeclared.model
  have hsteps : Stepwise [] (fun _ => True) n (assertSignatures v) fun _ _ => True :=
    stepwise_assertSignatures hv
  have hsteps' : Stepwise [] (fun _ => True) n (forFields v.model (assertFieldTyping v))
      fun _ _ => True := stepwise_forFields (stepwise_assertFieldTyping hv)
  have hrest : Stepwise [] (fun _ => True) n _ fun _ _ => True :=
    stepwise_afterTyping hv fun _ _ _ _ => trivial
  obtain ⟨_, p, hsignatures, hasserts⟩ := returns_bind.mp hasserts
  obtain ⟨_, q, htypes, hasserts⟩ := returns_bind.mp hasserts
  have hp := hsteps.ready hstart hsignatures
  have hgrows := hsteps.grows hstart hsignatures
  have hgrows' := hrest.grows (hsteps'.ready hp htypes) hasserts
  rw [forFields_eq] at htypes
  obtain ⟨hpq, typing, hq, hall⟩ := assertFieldTypings_returns
    (hdeclared.declared.extend hgrows.extension) (fun x hx => (mem_fieldEntries.mp hx).2) htypes
  obtain ⟨signatures, hsigs⟩ := hgrows.assertions
  obtain ⟨rest, hrest⟩ := hgrows'.assertions
  have hextends := (hgrows.extension.trans hpq).trans hgrows'.extension
  refine ⟨signatures, typing, rest, ?_, ?_⟩
  · rw [← hdeclared.assertions, hsigs, ← hq, hrest]
  · have hentries := (List.forall₂_and_left _ _).mpr ⟨fun _ hx => hx, hall hgrows'.extension⟩
    exact hentries.imp fun x a hxa => hxa.2.tuples hdeclared hextends hxa.1

end Structures

/-- One field with integers between atoms, and one without. -/
def mixedModel : Model where
  signatures := [⟨"A", .top, [], [⟨"f", [.univ, .int, .sig ⟨0⟩], .set⟩, ⟨"g", [.sig ⟨0⟩], .set⟩]⟩]

/-- One atom, and one tuple in each field. -/
def mixedInstance : Instance Unit where
  sig _ := Set.univ
  field id := if id.index = 0 then {[.atom (), .atom (), .int 7, .atom ()]}
    else {[.atom (), .atom ()]}

theorem satisfies_mixedInstance : mixedInstance.Satisfies mixedModel where
  parents {id g} hg := by
    obtain ⟨_ | i⟩ := id <;> cases hg
    trivial
  abstract {id g} hg habstract := by
    obtain ⟨_ | i⟩ := id <;> cases hg
    cases habstract
  disjoint {a b} h := by
    obtain ⟨hne, g, g', hg, hg', _⟩ := h
    obtain ⟨_ | i⟩ := a <;> cases hg
    obtain ⟨_ | j⟩ := b <;> cases hg'
    exact absurd rfl hne
  marks {id g} hg mark _ hhas := by
    obtain ⟨_ | i⟩ := id <;> cases hg
    cases hhas
  columns {id f} hf t ht := by
    obtain ⟨⟨_ | i⟩, _ | _ | j⟩ := id <;> cases hf <;> cases ht
    · exact ⟨(), trivial, _, rfl, .cons trivial (.cons trivial (.cons trivial .nil))⟩
    · exact ⟨(), trivial, _, rfl, .cons trivial .nil⟩
  multiplicities {id f} hf := by
    obtain ⟨⟨_ | i⟩, _ | _ | j⟩ := id <;> cases hf <;> exact fun _ _ => trivial
  facts := List.forall_mem_nil _

/-- A structure in which both assertions are true has the tuples of both fields where
they belong. -/
theorem encode_types_fields_mixed : ∃ s names typing E, ∃ M : Structure E,
    mixedModel.encode {} {} = (.ok s, names) ∧ M.Sorted s ∧
      M.Models s builtinScript.assertions ∧
      List.Forall₂ (TypesTuples s mixedModel) (fieldEntries mixedModel) typing ∧
      typing.length = 2 ∧ M.Models s typing ∧
      ∀ x ∈ fieldEntries mixedModel, (fieldValue M s mixedModel x.id).Nonempty ∧
        ∀ ds, .tuple ds ∈ fieldValue M s mixedModel x.id →
          Placed M s mixedModel x.id.sig x.field.columns ds := by
  obtain ⟨s, names, hs⟩ := @encode_of_isOk mixedModel {} (by decide +kernel)
  have htyped : mixedModel.WellTyped := List.forall_mem_nil _
  have hsingle : ∀ id, ∃ t, mixedInstance.field id = {t} := by
    intro id
    unfold mixedInstance
    dsimp only
    split <;> exact ⟨_, rfl⟩
  have hfinite : ∀ id, (mixedInstance.field id).Finite := by
    intro id
    obtain ⟨t, ht⟩ := hsingle id
    exact ht ▸ Set.finite_singleton t
  obtain ⟨v, start, q, new, hv, rfl, hnew⟩ := encode_ok htyped hs
  obtain ⟨M, hM, _, hsorted, hmodels⟩ := hnew.realization hv hfinite (List.forall_mem_nil _)
    satisfies_mixedInstance
  obtain ⟨signatures, typing, rest, heq, hall⟩ := encode_types_fields rfl hs
  simp only [heq, Structure.models_append] at hmodels
  obtain ⟨⟨⟨hbuiltin, _⟩, htyping⟩, _⟩ := hmodels
  refine ⟨q.script, names, typing, _, M, hs, hsorted, hbuiltin, hall, hall.length_eq.symm, htyping,
    fun x hx => ⟨?_, ?_⟩⟩
  · obtain ⟨hg, hfd⟩ := mem_fieldEntries.mp hx
    obtain ⟨d, hlookup, hvalue⟩ := (hM.represents hv hnew.extension).field hg hfd
    obtain ⟨t, ht⟩ := hsingle x.id
    rw [fieldValue_eq hg hfd hlookup, hvalue, ht]
    exact ⟨_, _, ⟨t, rfl, rfl⟩, rfl⟩
  · obtain ⟨i, hi⟩ := List.getElem?_of_mem hx
    obtain ⟨a, ha, htypes⟩ := forall₂_getElem?_left hall hi
    exact (htypes.truth hsorted hbuiltin).mp (htyping a (List.mem_of_getElem? ha))

end TupleLogic.Encoding
