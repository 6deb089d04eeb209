import TupleLogic.Proofs.Declarations
import TupleLogic.Proofs.Specimens

/-! Reading an instance off a structure. In a structure whose functions and
constants have values of their sorts, the relations of signatures and fields
are relations over the elements of `Atom`; they are the structure's instance.
If the built-in assertions hold as well, the structure interprets the
vocabulary as that instance does. -/

namespace TupleLogic

variable {E : Type}

/-- The declaration has values of its sort. Variables stand for what binds
them, and no encoding defines a function. -/
def Structure.Respects (M : Structure E) (id : DeclId) : Declaration → Prop
  | .function _ inputs output => ∀ args, List.Forall₂ (TermValue.HasSort M.carrier) inputs args →
      (M.meaning id args).HasSort M.carrier output
  | .constant _ sort => (M.meaning id []).HasSort M.carrier sort
  | .definition .. | .variable .. => True

/-- The first `n` declarations of the script have values of their sorts. -/
def Structure.SortedBelow (M : Structure E) (s : Script) (n : Nat) : Prop :=
  ∀ (id : DeclId) (d : Declaration), id.index < n → s.arena[id.index]? = some d → M.Respects id d

def Structure.Sorted (M : Structure E) (s : Script) : Prop := M.SortedBelow s s.arena.size

theorem Structure.respects_congr {M N : Structure E} {id : DeclId} (hc : M.carrier = N.carrier)
    (hm : M.meaning id = N.meaning id) (d : Declaration) : M.Respects id d ↔ N.Respects id d := by
  cases d <;> simp only [Structure.Respects, hc, hm]

theorem Structure.SortedBelow.mono {M : Structure E} {s : Script} {n k : Nat} (hkn : k ≤ n)
    (h : M.SortedBelow s n) : M.SortedBelow s k :=
  fun id d hid hd => h id d (Nat.lt_of_lt_of_le hid hkn) hd

/-- The declarations from `lo` up to `hi` have values of their sorts. -/
def Structure.SortedOn (M : Structure E) (s : Script) (lo hi : Nat) : Prop :=
  ∀ (id : DeclId) (d : Declaration), lo ≤ id.index → id.index < hi →
    s.arena[id.index]? = some d → M.Respects id d

theorem Structure.SortedBelow.on {M : Structure E} {s : Script} {n : Nat}
    (h : M.SortedBelow s n) (lo : Nat) : M.SortedOn s lo n := fun id d _ hid hd => h id d hid hd

theorem Structure.SortedOn.below {M N : Structure E} {s : Script} {lo hi : Nat}
    (h : N.SortedOn s lo hi) (hMN : M.Agrees lo N) (hM : M.SortedBelow s lo) :
    N.SortedBelow s hi := by
  intro id d hid hd
  by_cases hlt : id.index < lo
  · rw [← Structure.respects_congr hMN.1 (hMN.2 id hlt)]
    exact hM id d hlt hd
  · exact h id d (Nat.not_lt.mp hlt) hid hd

theorem Structure.SortedOn.congr {M N : Structure E} {s : Script} {lo hi : Nat}
    (h : M.SortedOn s lo hi) (hMN : M.AgreesOn lo hi N) : N.SortedOn s lo hi := by
  intro id d hlo hhi hd
  rw [← Structure.respects_congr hMN.1 (hMN.2 id hlo hhi)]
  exact h id d hlo hhi hd

/-- Bound variables take no part in the sorts of a structure. -/
theorem Structure.SortedBelow.addsVariables {M : Structure E} {s t f : Script}
    (h : M.SortedBelow f s.arena.size) (hst : s.AddsVariables t) (hf : t.Extends f) :
    M.SortedBelow f t.arena.size := by
  intro id d hid hd
  by_cases hlt : id.index < s.arena.size
  · exact h id d hlt hd
  · have ht : t.arena[id.index]? = some t.arena[id.index] := Array.getElem?_eq_getElem hid
    obtain ⟨name, sort, hvar⟩ := hst.fresh ht (Nat.not_lt.mp hlt)
    have hd' := hf.decl ht
    rw [hvar, hd, Option.some.injEq] at hd'
    rw [hd']
    trivial

namespace Encoding

open Relational

variable {α : Type} {ι : α → E} {carrier : String → Set E}

/-! ## Values of relational sorts -/

theorem hasSort_column (hatoms : carrier "Atom" = Set.range ι) {c : ColumnType} {d : Datum E} :
    d.HasSort carrier c.sort ↔ ∃ cell : Cell α, cell.type = c ∧ d = cellDatum ι cell := by
  constructor
  · intro h
    cases c with
    | atom =>
      cases d with
      | elem u =>
        have hu : u ∈ Set.range ι := hatoms ▸ h
        obtain ⟨a, rfl⟩ := hu
        exact ⟨.atom a, rfl, rfl⟩
      | int _ | tuple _ => cases h
    | int =>
      cases d with
      | int n => exact ⟨.int n, rfl, rfl⟩
      | elem _ | tuple _ => cases h
  · rintro ⟨cell, rfl, rfl⟩
    cases cell with
    | atom a =>
      change ι a ∈ carrier "Atom"
      exact hatoms ▸ ⟨a, rfl⟩
    | int n => trivial

theorem haveSorts_columns (hatoms : carrier "Atom" = Set.range ι) {cs : List ColumnType}
    {ds : List (Datum E)} : Datum.HaveSorts carrier (cs.map ColumnType.sort) ds ↔
      ∃ t : List (Cell α), t.map Cell.type = cs ∧ ds = t.map (cellDatum ι) := by
  induction cs generalizing ds with
  | nil =>
    cases ds with
    | nil => exact ⟨fun _ => ⟨[], rfl, rfl⟩, fun _ => trivial⟩
    | cons d ds =>
      refine ⟨fun h => h.elim, ?_⟩
      rintro ⟨t, ht, hd⟩
      rw [List.map_eq_nil_iff.mp ht] at hd
      cases hd
  | cons c cs ih =>
    cases ds with
    | nil =>
      refine ⟨fun h => h.elim, ?_⟩
      rintro ⟨t, ht, hd⟩
      rw [List.map_eq_nil_iff.mp hd.symm] at ht
      cases ht
    | cons d ds =>
      change (d.HasSort carrier c.sort ∧ Datum.HaveSorts carrier (cs.map ColumnType.sort) ds) ↔ _
      rw [hasSort_column hatoms, ih]
      constructor
      · rintro ⟨⟨cell, rfl, rfl⟩, t, rfl, rfl⟩
        exact ⟨cell :: t, rfl, rfl⟩
      · rintro ⟨t, ht, hd⟩
        cases t with
        | nil => cases ht
        | cons cell t =>
          cases ht
          cases hd
          exact ⟨⟨cell, rfl, rfl⟩, t, rfl, rfl⟩

theorem hasSort_tuple (hatoms : carrier "Atom" = Set.range ι) {cs : List ColumnType}
    {d : Datum E} : d.HasSort carrier (.tuple (cs.map ColumnType.sort)) ↔
      ∃ t : List (Cell α), t.map Cell.type = cs ∧ d = .tuple (t.map (cellDatum ι)) := by
  cases d with
  | elem _ | int _ => exact ⟨fun h => h.elim, fun ⟨_, _, h⟩ => nomatch h⟩
  | tuple ds =>
    refine (haveSorts_columns hatoms).trans (exists_congr fun t => and_congr_right' ?_)
    rw [Datum.tuple.injEq]

/-- The values of a relational sort are the relations with its columns. -/
theorem hasSort_relation (hatoms : carrier "Atom" = Set.range ι) {cs : List ColumnType}
    {w : TermValue E} : w.HasSort carrier (relationSort cs) ↔
      ∃ r : Relation α, w = relationValue ι r ∧ ∀ t ∈ r, t.map Cell.type = cs := by
  constructor
  · intro h
    cases w with
    | datum _ | truth _ => cases h
    | set S =>
      refine ⟨{t | t.map Cell.type = cs ∧ .tuple (t.map (cellDatum ι)) ∈ S}, ?_, fun t ht => ht.1⟩
      have hS : S = Datum.tuple '' Tuples.image (cellDatum ι)
          {t | t.map Cell.type = cs ∧ .tuple (t.map (cellDatum ι)) ∈ S} := by
        ext d
        constructor
        · intro hd
          obtain ⟨t, ht, rfl⟩ := (hasSort_tuple hatoms).mp (h d hd)
          exact ⟨_, ⟨t, ⟨ht, hd⟩, rfl⟩, rfl⟩
        · rintro ⟨_, ⟨t, ⟨_, hd⟩, rfl⟩, rfl⟩
          exact hd
      exact congrArg TermValue.set hS
  · rintro ⟨r, rfl, hr⟩
    rintro _ ⟨_, ⟨t, ht, rfl⟩, rfl⟩
    exact (hasSort_tuple hatoms).mpr ⟨t, hr t ht, rfl⟩

theorem hasSort_intTuple {n : Nat} {w : TermValue E} :
    w.HasSort carrier (.tuple (List.replicate n .int)) ↔
      ∃ ns : List Int, ns.length = n ∧ w = .datum (intTuple ns) := by
  have hlist : ∀ {ds : List (Datum E)}, Datum.HaveSorts carrier (List.replicate n .int) ds ↔
      ∃ ns : List Int, ns.length = n ∧ ds = ns.map .int := by
    intro ds
    have hsorts : List.replicate n TermSort.int =
        (List.replicate n ColumnType.int).map ColumnType.sort := by
      rw [List.map_replicate]
      rfl
    rw [hsorts, haveSorts_columns (ι := ((↑) : carrier "Atom" → E)) Subtype.range_val.symm]
    constructor
    · rintro ⟨t, ht, rfl⟩
      obtain ⟨ns, hns, rfl⟩ := eq_map_int_of_types ht
      exact ⟨ns, hns, map_cellDatum_int ns⟩
    · rintro ⟨ns, hns, rfl⟩
      refine ⟨ns.map Cell.int, ?_, (map_cellDatum_int ns).symm⟩
      rw [List.map_map, ← hns]
      exact List.map_const'
  cases w with
  | set _ | truth _ => exact ⟨fun h => h.elim, fun ⟨_, _, h⟩ => nomatch h⟩
  | datum d =>
    cases d with
    | elem _ | int _ => exact ⟨fun h => h.elim, fun ⟨_, _, h⟩ => nomatch h⟩
    | tuple ds =>
      refine hlist.trans (exists_congr fun ns => and_congr_right' ?_)
      rw [TermValue.datum.injEq, intTuple, Datum.tuple.injEq]

/-! ## The instance of a structure -/

/-- The atoms of each signature and the tuples of each field, as the relations
of their names have them. -/
def instanceOf (M : Structure E) (s : Script) (m : Model) :
    Instance (M.carrier "Atom") where
  sig id := {a | ∃ g d, m.signature? id = some g ∧ s.lookup (relationName g.label) = some d ∧
    .tuple [.elem ↑a] ∈ (M.meaning d []).elements}
  field id := {t | ∃ g f d, m.signature? id.sig = some g ∧ m.field? id = some f ∧
    s.lookup (fieldName g f) = some d ∧
    .tuple (t.map (cellDatum Subtype.val)) ∈ (M.meaning d []).elements}

/-- The value of the relation that has the name of the signature. -/
def signatureValue (M : Structure E) (s : Script) (m : Model) (id : SigId) : Set (Datum E) :=
  {x | ∃ g d, m.signature? id = some g ∧ s.lookup (relationName g.label) = some d ∧
    x ∈ (M.meaning d []).elements}

/-- The value of the relation that has the name of the field. -/
def fieldValue (M : Structure E) (s : Script) (m : Model) (id : FieldId) : Set (Datum E) :=
  {x | ∃ g f d, m.signature? id.sig = some g ∧ m.field? id = some f ∧
    s.lookup (fieldName g f) = some d ∧ x ∈ (M.meaning d []).elements}

variable {v : Vocabulary} {m : Model} {p : Progress} {f : Script} {M : Structure E}

theorem signatureValue_eq {id : SigId} {g : Signature} {d : DeclId} (hg : m.signature? id = some g)
    (hd : f.lookup (relationName g.label) = some d) :
    signatureValue M f m id = (M.meaning d []).elements := by
  ext x
  constructor
  · rintro ⟨g', d', hg', hd', hx⟩
    obtain rfl := Option.some.inj (hg.symm.trans hg')
    obtain rfl := Option.some.inj (hd.symm.trans hd')
    exact hx
  · exact fun hx => ⟨g, d, hg, hd, hx⟩

theorem fieldValue_eq {id : FieldId} {g : Signature} {fd : Field} {d : DeclId}
    (hg : m.signature? id.sig = some g) (hf : m.field? id = some fd)
    (hd : f.lookup (fieldName g fd) = some d) :
    fieldValue M f m id = (M.meaning d []).elements := by
  ext x
  constructor
  · rintro ⟨g', fd', d', hg', hf', hd', hx⟩
    obtain rfl := Option.some.inj (hg.symm.trans hg')
    obtain rfl := Option.some.inj (hf.symm.trans hf')
    obtain rfl := Option.some.inj (hd.symm.trans hd')
    exact hx
  · exact fun hx => ⟨g, fd, d, hg, hf, hd, hx⟩

/-- A relation of the script has a relation for its value. -/
theorem sorted_relation (hM : M.Sorted f) (hatoms : M.carrier "Atom" = Set.range ι)
    {name : String} {cs : List ColumnType} {d : DeclId}
    (hd : HasFunction f name [] (relationSort cs) d) :
    ∃ r : Relation α, M.meaning d [] = relationValue ι r ∧ ∀ t ∈ r, t.map Cell.type = cs :=
  (hasSort_relation hatoms).mp (hM d _ hd.index_lt hd.2 [] .nil)

theorem mem_relationValue_iff (hι : Function.Injective ι) {w : TermValue E} {r : Relation α}
    (hw : w = relationValue ι r) :
    {t | .tuple (t.map (cellDatum ι)) ∈ w.elements} = r := by
  ext t
  rw [hw]
  exact tuple_mem_relationValue hι

/-- The relation of a signature has its atoms for its value. -/
theorem meaning_eq_sig (hM : M.Sorted f) {id : SigId} {g : Signature} {d : DeclId}
    (hg : m.signature? id = some g)
    (hd : HasFunction f (relationName g.label) [] (relationSort [.atom]) d) :
    M.meaning d [] = relationValue Subtype.val (.ofAtoms ((instanceOf M f m).sig id)) := by
  obtain ⟨r, hr, htypes⟩ := sorted_relation hM Subtype.range_val.symm hd
  have hI : Relation.ofAtoms ((instanceOf M f m).sig id) = r := by
    ext t
    constructor
    · rintro ⟨a, ⟨g', d', hg', hd', ha⟩, rfl⟩
      obtain rfl := Option.some.inj (hg.symm.trans hg')
      obtain rfl := Option.some.inj (hd.1.symm.trans hd')
      rw [hr] at ha
      exact (tuple_mem_relationValue (t := [.atom a]) Subtype.val_injective).mp ha
    · intro ht
      have htype := htypes t ht
      obtain ⟨cell, rfl⟩ := List.length_eq_one_iff.mp (by simpa using congrArg List.length htype)
      cases cell with
      | int n => cases htype
      | atom a =>
        refine ⟨a, ⟨g, d, hg, hd.1, ?_⟩, rfl⟩
        rw [hr]
        exact (tuple_mem_relationValue (t := [.atom a]) Subtype.val_injective).mpr ht
  rw [hI, hr]

theorem meaning_eq_field (hM : M.Sorted f) {id : FieldId} {g : Signature} {fd : Field}
    {d : DeclId} (hg : m.signature? id.sig = some g) (hfd : m.field? id = some fd)
    (hd : HasFunction f (fieldName g fd) [] (relationSort (fieldTypes fd)) d) :
    M.meaning d [] = relationValue Subtype.val ((instanceOf M f m).field id) ∧
      ∀ t ∈ (instanceOf M f m).field id, t.map Cell.type = fieldTypes fd := by
  obtain ⟨r, hr, htypes⟩ := sorted_relation hM Subtype.range_val.symm hd
  have hI : (instanceOf M f m).field id = r := by
    rw [← mem_relationValue_iff Subtype.val_injective hr]
    ext t
    constructor
    · rintro ⟨g', fd', d', hg', hfd', hd', ht⟩
      obtain rfl := Option.some.inj (hg.symm.trans hg')
      obtain rfl := Option.some.inj (hfd.symm.trans hfd')
      obtain rfl := Option.some.inj (hd.1.symm.trans hd')
      exact ht
    · exact fun ht => ⟨g, fd, d, hg, hfd, hd.1, ht⟩
  exact ⟨hI ▸ hr, hI ▸ htypes⟩

theorem interprets_instanceOf (h : DeclaresVocabulary m v p) (hf : p.script.Extends f)
    (hM : M.Sorted f)
    (huniv : M.meaning v.univRelation [] =
      relationValue ((↑) : M.carrier "Atom" → E) (.ofAtoms Set.univ))
    (hnone : M.meaning v.noneRelation [] = relationValue ((↑) : M.carrier "Atom" → E) ∅)
    (hiden : M.meaning v.idenRelation [] = relationValue ((↑) : M.carrier "Atom" → E) .diagonal) :
    Interprets v f ((↑) : M.carrier "Atom" → E) (instanceOf M f m) M := by
  have hv := h.declared
  obtain rfl := h.model
  refine ⟨Subtype.val_injective, Subtype.range_val.symm, ?_, ?_, huniv, hnone, hiden, ?_, ?_⟩
  · intro id d hd
    obtain ⟨g, hg, hfun⟩ := hv.sig hd
    exact meaning_eq_sig hM hg (hfun.extend hf)
  · intro id d hd
    obtain ⟨g, fd, hg, hfd, hfun⟩ := hv.field hd
    exact (meaning_eq_field hM hg hfd (hfun.extend hf)).1
  · intro fid fd t hfd ht
    obtain ⟨g, fd', d, hg, hfd', hd, hmem⟩ := id ht
    -- the vocabulary has one relation for the field, so the tuple is one of its tuples
    obtain ⟨d', hd', _⟩ := h.field_relation hg hfd'
    obtain ⟨g', fd'', hg', hfd'', hfun⟩ := hv.field hd'
    obtain rfl := Option.some.inj (hfd.symm.trans hfd'')
    exact (meaning_eq_field hM hg' hfd (hfun.extend hf)).2 t ht
  · intro w hw d hd u hu
    obtain ⟨d', hd'⟩ := hv.values w hw
    have hd' := hd'.extend hf
    obtain rfl : d = d' := Option.some.inj (hd.symm.trans hd'.1)
    have hsort := hM d _ hd'.index_lt hd'.2 [.datum (.elem u)] (.cons hu .nil)
    exact hasSort_intTuple.mp hsort

/-! ## The built-in relations -/

/-- All tuples of a sort, as a relation. -/
theorem full_relationSort (hatoms : M.carrier "Atom" = Set.range ι) (cs : List ColumnType) :
    TermValue.set (M.full (relationSort cs)) = relationValue ι {t | t.map Cell.type = cs} := by
  refine congrArg TermValue.set ?_
  ext d
  constructor
  · intro hd
    obtain ⟨t, ht, rfl⟩ := (hasSort_tuple hatoms).mp hd
    exact ⟨_, ⟨t, ht, rfl⟩, rfl⟩
  · rintro ⟨_, ⟨t, ht, rfl⟩, rfl⟩
    exact (hasSort_tuple hatoms).mpr ⟨t, ht, rfl⟩

theorem ofAtoms_univ : Relation.ofAtoms (Set.univ : Set α) = {t | t.map Cell.type = [.atom]} := by
  ext t
  constructor
  · rintro ⟨a, _, rfl⟩
    rfl
  · intro ht
    obtain ⟨cell, rfl⟩ := List.length_eq_one_iff.mp (by simpa using congrArg List.length ht)
    cases cell with
    | int n => cases ht
    | atom a => exact ⟨a, trivial, rfl⟩

/-- A relation of pairs of atoms is the diagonal if it holds just the pairs of
equal atoms. -/
theorem eq_diagonal_iff {r : Relation α} (hr : ∀ t ∈ r, t.map Cell.type = [.atom, .atom]) :
    r = .diagonal ↔ ∀ a b : α, [.atom a, .atom b] ∈ r ↔ a = b := by
  constructor
  · rintro rfl a b
    constructor
    · rintro ⟨c, hc⟩
      simp only [List.cons.injEq, Cell.atom.injEq, and_true] at hc
      exact hc.1.symm.trans hc.2
    · rintro rfl
      exact ⟨a, rfl⟩
  · intro h
    ext t
    constructor
    · intro ht
      have htype := hr t ht
      obtain ⟨x, y, rfl⟩ := List.length_eq_two.mp (by simpa using congrArg List.length htype)
      cases x with
      | int n => cases htype
      | atom a =>
        cases y with
        | int n => cases htype
        | atom b =>
          obtain rfl := (h a b).mp ht
          exact ⟨a, rfl⟩
    · rintro ⟨a, rfl⟩
      exact (h a a).mpr rfl

/-- The variables of the built-in assertions stand for any two atoms. -/
theorem fits_atomPair (hf : builtinScript.Extends f) (hatoms : M.carrier "Atom" = Set.range ι)
    {vs : List (TermValue E)} : M.Fits f [⟨6⟩, ⟨7⟩] vs ↔
      ∃ a b : α, vs = [.datum (.elem (ι a)), .datum (.elem (ι b))] := by
  have hdom : ∀ (x : DeclId) (name : String),
      builtinScript.arena[x.index]? = some (.variable name .atom) →
      ∀ w, M.InDomain f x w ↔ ∃ a : α, w = .datum (.elem (ι a)) := by
    intro x name hx w
    have hx := hf.decl hx
    constructor
    · rintro ⟨d, hd, hw⟩
      rw [hx, Option.some.injEq] at hd
      subst hd
      obtain ⟨u, hu, rfl⟩ := hasSort_named.mp hw
      rw [hatoms] at hu
      obtain ⟨a, rfl⟩ := hu
      exact ⟨a, rfl⟩
    · rintro ⟨a, rfl⟩
      exact ⟨_, hx, hasSort_named.mpr ⟨ι a, hatoms ▸ ⟨a, rfl⟩, rfl⟩⟩
  have hx := hdom ⟨6⟩ "x" rfl
  have hy := hdom ⟨7⟩ "y" rfl
  constructor
  · intro h
    obtain ⟨w, ws, hw, hws, rfl⟩ := List.forall₂_cons_left_iff.mp h
    obtain ⟨w', ws', hw', hws', rfl⟩ := List.forall₂_cons_left_iff.mp hws
    cases hws'
    obtain ⟨a, rfl⟩ := (hx w).mp hw
    obtain ⟨b, rfl⟩ := (hy w').mp hw'
    exact ⟨a, b, rfl⟩
  · rintro ⟨a, b, rfl⟩
    exact .cons ((hx _).mpr ⟨a, rfl⟩) (.cons ((hy _).mpr ⟨b, rfl⟩) .nil)

/-- What the built-in assertions say. -/
theorem holds_builtins (hι : Function.Injective ι) (hatoms : M.carrier "Atom" = Set.range ι)
    (hf : builtinScript.Extends f)
    (hiden : (M.meaning ⟨5⟩ []).HasSort M.carrier (relationSort [.atom, .atom])) :
    M.Models f builtinScript.assertions ↔
      M.meaning ⟨4⟩ [] = relationValue ι ∅ ∧
      M.meaning ⟨3⟩ [] = relationValue ι (.ofAtoms Set.univ) ∧
      M.meaning ⟨5⟩ [] = relationValue ι .diagonal := by
  simp only [Structure.Models, builtinScript, List.forall_mem_cons, List.not_mem_nil, false_implies, implies_true,
    and_true]
  refine and_congr ?_ (and_congr ?_ ?_)
  · rw [Term.holds_equals, Term.eval_ref, Term.eval_emptySet, relationValue_empty]
  · rw [Term.holds_equals, Term.eval_ref, Term.eval_fullSet, ofAtoms_univ]
    exact iff_of_eq (congrArg _ (full_relationSort hatoms [.atom]))
  · obtain ⟨r, hr, htypes⟩ := (hasSort_relation hatoms).mp hiden
    rw [hr, (relationValue_injective hι).eq_iff, eq_diagonal_iff htypes]
    have hpair : ∀ a b : α, (Term.equals (.member (.nary .tuple [.ref ⟨6⟩, .ref ⟨7⟩]) (.ref ⟨5⟩))
        (.equals (.ref ⟨6⟩) (.ref ⟨7⟩))).Holds f
          (M.assign [⟨6⟩, ⟨7⟩] [.datum (.elem (ι a)), .datum (.elem (ι b))]) ↔
        ([.atom a, .atom b] ∈ r ↔ a = b) := by
      intro a b
      rw [Term.holds_equals, Term.eval_eq_iff ⟨_, rfl⟩ ⟨_, rfl⟩]
      refine iff_congr ?_ ?_
      · rw [Term.holds_member, Term.eval_tuple]
        change Datum.tuple [.elem (ι a), .elem (ι b)] ∈ (M.meaning ⟨5⟩ []).elements ↔ _
        rw [hr]
        exact tuple_mem_relationValue (t := [.atom a, .atom b]) hι
      · change TermValue.datum (.elem (ι a)) = .datum (.elem (ι b)) ↔ _
        rw [TermValue.datum.injEq, Datum.elem.injEq, hι.eq_iff]
    constructor
    · intro h a b
      exact (hpair a b).mp (h _ ((fits_atomPair hf hatoms).mpr ⟨a, b, rfl⟩))
    · intro h vs hvs
      obtain ⟨a, b, rfl⟩ := (fits_atomPair hf hatoms).mp hvs
      exact (hpair a b).mpr (h a b)

/-- A structure in which the built-in assertions hold interprets the
vocabulary as its instance does. -/
theorem interprets_of_builtins (h : DeclaresVocabulary m v p) (hf : p.script.Extends f)
    (hM : M.Sorted f) (hbuiltin : M.Models f p.script.assertions) :
    Interprets v f Subtype.val (instanceOf M f m) M := by
  have hbf := h.builtin.trans hf
  have hiden := hasFunction_builtin.2.2.extend hbf
  rw [h.assertions, holds_builtins Subtype.val_injective Subtype.range_val.symm hbf
    (hM _ _ hiden.index_lt hiden.2 [] .nil)] at hbuiltin
  obtain ⟨hnone, huniv, hiden⟩ := hbuiltin
  refine interprets_instanceOf h hf hM ?_ ?_ ?_
  · rw [h.univ, huniv]
  · rw [h.none, hnone]
  · rw [h.iden, hiden]

end Encoding

end TupleLogic
