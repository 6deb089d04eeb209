import TupleLogic.Encoding.Compile
import TupleLogic.Proofs.Growth
import TupleLogic.Proofs.Instance
import TupleLogic.Proofs.Structure

/-! Instances inside structures. A structure for an encoded model interprets
the relations that the encoding declares; read back along the elements of
`Atom` they make an instance. `Declared` is what the script knows about the
vocabulary of an encoding, and `Interprets` ties a structure to an instance. -/

namespace TupleLogic.Encoding

open Relational

variable {α E : Type}

def cellDatum (ι : α → E) : Cell α → Datum E
  | .atom a => .elem (ι a)
  | .int n => .int n

theorem map_cellDatum_int {ι : α → E} (ns : List Int) :
    (ns.map Cell.int).map (cellDatum ι) = ns.map .int := List.map_map

theorem cellDatum_injective {ι : α → E} (hι : Function.Injective ι) :
    Function.Injective (cellDatum ι) := by
  intro c d h
  cases c <;> cases d <;> simp only [cellDatum, Datum.elem.injEq, Datum.int.injEq, reduceCtorEq] at h
  · rw [hι h]
  · rw [h]

/-- A relation as a value, where each atom stands for an element. -/
def relationValue (ι : α → E) (r : Relation α) : TermValue E := .ofTuples (Tuples.image (cellDatum ι) r)

section RelationValue

variable {ι : α → E}

theorem tuples_relationValue (r : Relation α) :
    (relationValue ι r).tuples = Tuples.image (cellDatum ι) r := TermValue.tuples_ofTuples _

theorem finite_relationValue {r : Relation α} (hr : r.Finite) :
    (relationValue ι r).elements.Finite := (hr.image _).image _

theorem relationValue_empty : relationValue ι ∅ = .set ∅ := by
  rw [relationValue, Tuples.image_empty, TermValue.ofTuples, Set.image_empty]

theorem relationValue_singleton (t : List (Cell α)) :
    relationValue ι {t} = .set {.tuple (t.map (cellDatum ι))} := by
  rw [relationValue, Tuples.image_singleton, TermValue.ofTuples, Set.image_singleton]

theorem relationValue_union (r s : Relation α) : relationValue ι (r ∪ s) =
    .set ((relationValue ι r).elements ∪ (relationValue ι s).elements) := by
  rw [relationValue, Tuples.image_union, TermValue.ofTuples, Set.image_union]
  rfl

variable (hι : Function.Injective ι)

include hι

theorem relationValue_injective : Function.Injective (relationValue ι) := fun _ _ h =>
  Tuples.image_injective (cellDatum_injective hι) (TermValue.ofTuples_injective h)

theorem ncard_relationValue {r : Relation α} : (relationValue ι r).elements.ncard = r.ncard := by
  have hd : Function.Injective (Datum.tuple (E := E)) := fun _ _ h => Datum.tuple.inj h
  have ht : Function.Injective (List.map (cellDatum ι)) :=
    List.map_injective_iff.mpr (cellDatum_injective hι)
  exact (Set.ncard_image_of_injective _ hd).trans (Set.ncard_image_of_injective _ ht)

theorem tuple_mem_relationValue {r : Relation α} {t : List (Cell α)} :
    .tuple (t.map (cellDatum ι)) ∈ (relationValue ι r).elements ↔ t ∈ r := by
  rw [relationValue, TermValue.mem_elements_ofTuples, Tuples.map_mem_image (cellDatum_injective hι)]

theorem relationValue_subset {r s : Relation α} :
    (relationValue ι r).elements ⊆ (relationValue ι s).elements ↔ r ⊆ s := by
  have hd : Function.Injective (Datum.tuple (E := E)) := fun _ _ h => Datum.tuple.inj h
  exact (Set.image_subset_image_iff hd).trans
    (Tuples.image_subset_image (cellDatum_injective hι))

theorem relationValue_inter (r s : Relation α) : relationValue ι (r ∩ s) =
    .set ((relationValue ι r).elements ∩ (relationValue ι s).elements) := by
  have hd : Function.Injective (Datum.tuple (E := E)) := fun _ _ h => Datum.tuple.inj h
  rw [relationValue, Tuples.image_inter (cellDatum_injective hι), TermValue.ofTuples,
    Set.image_inter hd]
  rfl

theorem relationValue_diff (r s : Relation α) : relationValue ι (r \ s) =
    .set ((relationValue ι r).elements \ (relationValue ι s).elements) := by
  have hd : Function.Injective (Datum.tuple (E := E)) := fun _ _ h => Datum.tuple.inj h
  rw [relationValue, Tuples.image_diff (cellDatum_injective hι), TermValue.ofTuples,
    Set.image_sdiff hd]
  rfl

end RelationValue

/-! ## What an encoding declares -/

/-- The sort of relations with the given columns. -/
def relationSort (cs : List ColumnType) : TermSort := .set (.tuple (cs.map ColumnType.sort))

def fieldTypes (f : Field) : List ColumnType := .atom :: f.columns.map Column.type

theorem fieldColumns_eq (f : Field) : fieldColumns f = (fieldTypes f).map ColumnType.sort := by
  have hc : columnSort = ColumnType.sort ∘ Column.type := by
    funext c
    cases c <;> rfl
  rw [fieldColumns, fieldTypes, List.map_cons, List.map_map, ← hc]
  rfl

def fieldName (g : Signature) (f : Field) : String :=
  relationName g.label ++ "_" ++ relationName f.label

/-- A sort whose elements stand for tuples of integers, the function that
gives the tuples, and their width. -/
structure IntSort where
  sort : String
  value : String
  width : Nat
  deriving DecidableEq, Repr

def unaryInts : IntSort := ⟨"UnaryIntTup", "value_of_unaryIntTup", 1⟩

def binaryInts : IntSort := ⟨"BinaryIntTup", "value_of_binaryIntTup", 2⟩

def ternaryInts : IntSort := ⟨"TernaryIntTup", "value_of_ternaryIntTup", 3⟩

def intSorts : List IntSort := [unaryInts, binaryInts, ternaryInts]

theorem intSorts_width_ne {w : IntSort} (hw : w ∈ intSorts) : w.width ≠ 0 := by
  simp only [intSorts, List.mem_cons, List.not_mem_nil, or_false] at hw
  rcases hw with rfl | rfl | rfl <;> decide

theorem nodup_widths : (intSorts.map IntSort.width).Nodup := by decide

/-- The tuple that an element of the sort stands for. -/
def IntSort.valueOf (w : IntSort) (t : Term) : Term := .call w.value [t]

def intTuple (ns : List Int) : Datum E := .tuple (ns.map .int)

theorem intTuple_injective : Function.Injective (intTuple : List Int → Datum E) := by
  intro ns ns' h
  exact (List.map_injective_iff.mpr fun _ _ h => Datum.int.inj h) (Datum.tuple.inj h)

/-- The script has a function of that name, inputs and output at that position. -/
def HasFunction (s : Script) (name : String) (inputs : List TermSort) (output : TermSort)
    (d : DeclId) : Prop :=
  s.lookup name = some d ∧ s.arena[d.index]? = some (.function name inputs output)

theorem HasFunction.extend {s t : Script} (hst : s.Extends t) {name inputs output d}
    (h : HasFunction s name inputs output d) : HasFunction t name inputs output d :=
  ⟨hst.lookup h.1, hst.decl h.2⟩

theorem HasFunction.index_lt {s : Script} {name inputs output d}
    (h : HasFunction s name inputs output d) : d.index < s.arena.size := by
  by_contra hlt
  have := h.2
  rw [Array.getElem?_eq_none (Nat.not_lt.mp hlt)] at this
  cases this

def Vocabulary.field? (v : Vocabulary) (id : FieldId) : Option DeclId :=
  (v.fields[id.sig.index]?).bind fun fs => fs[id.index]?

/-- The relations of the vocabulary are those that the script declares for the
model's signatures and fields, and for the built-in relations. -/
structure Declared (v : Vocabulary) (s : Script) : Prop where
  sig : ∀ {id : SigId} {d : DeclId}, v.signatures[id.index]? = some d →
    ∃ g, v.model.signature? id = some g ∧
      HasFunction s (relationName g.label) [] (relationSort [.atom]) d
  field : ∀ {id : FieldId} {d : DeclId}, v.field? id = some d →
    ∃ g f, v.model.signature? id.sig = some g ∧ v.model.field? id = some f ∧
      HasFunction s (fieldName g f) [] (relationSort (fieldTypes f)) d
  univ : HasFunction s "atomUniv" [] (relationSort [.atom]) v.univRelation
  none : HasFunction s "atomNone" [] (relationSort [.atom]) v.noneRelation
  iden : HasFunction s "atomIden" [] (relationSort [.atom, .atom]) v.idenRelation
  values : ∀ w ∈ intSorts, ∃ d,
    HasFunction s w.value [.named w.sort] (.tuple (List.replicate w.width .int)) d

theorem Declared.extend {v : Vocabulary} {s t : Script} (h : Declared v s) (hst : s.Extends t) :
    Declared v t where
  sig hd := by
    obtain ⟨g, hg, hf⟩ := h.sig hd
    exact ⟨g, hg, hf.extend hst⟩
  field hd := by
    obtain ⟨g, f, hg, hf, hn⟩ := h.field hd
    exact ⟨g, f, hg, hf, hn.extend hst⟩
  univ := h.univ.extend hst
  none := h.none.extend hst
  iden := h.iden.extend hst
  values w hw := by
    obtain ⟨d, hd⟩ := h.values w hw
    exact ⟨d, hd.extend hst⟩

/-! ## Structures that hold an instance -/

/-- The structure interprets the vocabulary as the instance does, where each
atom stands for an element, and its integer sorts stand for tuples of integers. -/
structure Interprets (v : Vocabulary) (s : Script) (ι : α → E) (I : Instance α)
    (M : Structure E) : Prop where
  injective : Function.Injective ι
  atoms : M.carrier "Atom" = Set.range ι
  sig : ∀ {id : SigId} {d : DeclId}, v.signatures[id.index]? = some d →
    M.meaning d [] = relationValue ι (.ofAtoms (I.sig id))
  field : ∀ {id : FieldId} {d : DeclId}, v.field? id = some d →
    M.meaning d [] = relationValue ι (I.field id)
  univ : M.meaning v.univRelation [] = relationValue ι (.ofAtoms Set.univ)
  none : M.meaning v.noneRelation [] = relationValue ι ∅
  iden : M.meaning v.idenRelation [] = relationValue ι .diagonal
  typed : ∀ {id : FieldId} {f : Field} {t : List (Cell α)}, v.model.field? id = some f →
    t ∈ I.field id → t.map Cell.type = fieldTypes f
  values : ∀ w ∈ intSorts, ∀ d, s.lookup w.value = some d → ∀ u ∈ M.carrier w.sort,
    ∃ ns : List Int, ns.length = w.width ∧ M.meaning d [.datum (.elem u)] = .datum (intTuple ns)

/-- The tuples that the elements of the sort stand for. -/
def intValues (M : Structure E) (s : Script) (w : IntSort) : Set (List Int) :=
  {ns | ∃ d, s.lookup w.value = some d ∧ ∃ u ∈ M.carrier w.sort,
    M.meaning d [.datum (.elem u)] = .datum (intTuple ns)}

/-- Every tuple of integers, of one to three columns, is the value of an
element of its sort. -/
def Onto (s : Script) (M : Structure E) : Prop :=
  ∀ w ∈ intSorts, ∀ d, s.lookup w.value = some d → ∀ ns : List Int, ns.length = w.width →
    ∃ u ∈ M.carrier w.sort, M.meaning d [.datum (.elem u)] = .datum (intTuple ns)

/-- What lies beyond the script that declares the vocabulary is of no concern. -/
theorem Interprets.agrees {v : Vocabulary} {s f : Script} {ι : α → E} {I : Instance α}
    {M N : Structure E} (h : Interprets v f ι I M) (hv : Declared v s) (hsf : s.Extends f)
    (hMN : M.Agrees s.arena.size N) : Interprets v f ι I N where
  injective := h.injective
  atoms := hMN.1 ▸ h.atoms
  sig hd := by
    obtain ⟨g, _, hg⟩ := hv.sig hd
    rw [← hMN.2 _ hg.index_lt, h.sig hd]
  field hd := by
    obtain ⟨g, f, _, _, hf⟩ := hv.field hd
    rw [← hMN.2 _ hf.index_lt, h.field hd]
  univ := by rw [← hMN.2 _ hv.univ.index_lt, h.univ]
  none := by rw [← hMN.2 _ hv.none.index_lt, h.none]
  iden := by rw [← hMN.2 _ hv.iden.index_lt, h.iden]
  typed := h.typed
  values w hw d hd u hu := by
    obtain ⟨d', hd'⟩ := hv.values w hw
    have hdd : d = d' := Option.some.inj (hd.symm.trans (hsf.lookup hd'.1))
    rw [← hMN.2 d (hdd ▸ hd'.index_lt)]
    exact h.values w hw d hd u (hMN.1 ▸ hu)

/-- The values of integer sorts keep their names. -/
theorem Interprets.extend {v : Vocabulary} {s f : Script} {ι : α → E} {I : Instance α}
    {M : Structure E} (h : Interprets v s ι I M) (hv : Declared v s) (hsf : s.Extends f) :
    Interprets v f ι I M where
  injective := h.injective
  atoms := h.atoms
  sig := h.sig
  field := h.field
  univ := h.univ
  none := h.none
  iden := h.iden
  typed := h.typed
  values w hw d hd u hu := by
    obtain ⟨d', hd'⟩ := hv.values w hw
    have hdd : d = d' := Option.some.inj (hd.symm.trans (hsf.lookup hd'.1))
    exact h.values w hw d (hdd ▸ hd'.1) u hu

theorem Onto.agrees {v : Vocabulary} {s f : Script} {M N : Structure E} (h : Onto f M)
    (hv : Declared v s) (hsf : s.Extends f) (hMN : M.Agrees s.arena.size N) : Onto f N := by
  intro w hw d hd ns hns
  obtain ⟨d', hd'⟩ := hv.values w hw
  have hdd : d = d' := Option.some.inj (hd.symm.trans (hsf.lookup hd'.1))
  obtain ⟨u, hu, hm⟩ := h w hw d hd ns hns
  exact ⟨u, hMN.1 ▸ hu, by rw [← hMN.2 d (hdd ▸ hd'.index_lt), hm]⟩

theorem intValues_agrees {v : Vocabulary} {s f : Script} {M N : Structure E} (hv : Declared v s)
    (hsf : s.Extends f) (hMN : M.Agrees s.arena.size N) {w : IntSort} (hw : w ∈ intSorts) :
    intValues N f w = intValues M f w := by
  ext ns
  refine exists_congr fun d => and_congr_right fun hd => ?_
  obtain ⟨d', hd'⟩ := hv.values w hw
  have hdd : d = d' := Option.some.inj (hd.symm.trans (hsf.lookup hd'.1))
  rw [← hMN.1, ← hMN.2 d (hdd ▸ hd'.index_lt)]

/-! ## Scopes -/

/-- The variables in scope are variables of the script that range over atoms. -/
def ScopeIn (s : Script) (scope : Scope) : Prop :=
  ∀ b ∈ scope, ∃ d, s.arena[b.2.index]? = some d ∧ d.sort = .atom

theorem scopeIn_nil (s : Script) : ScopeIn s [] := fun _ h => nomatch h

theorem ScopeIn.extend {s t : Script} {scope : Scope} (h : ScopeIn s scope) (hst : s.Extends t) :
    ScopeIn t scope := by
  intro b hb
  obtain ⟨d, hd, hsort⟩ := h b hb
  exact ⟨d, hst.decl hd, hsort⟩

theorem ScopeIn.index_lt {s : Script} {scope : Scope} (h : ScopeIn s scope) {b} (hb : b ∈ scope) :
    b.2.index < s.arena.size := by
  obtain ⟨d, hd, _⟩ := h b hb
  by_contra hlt
  rw [Array.getElem?_eq_none (Nat.not_lt.mp hlt)] at hd
  cases hd

/-- The variables in scope stand for the atoms of the environment. -/
def Matches (ι : α → E) (M : Structure E) : Scope → Env α → Prop :=
  List.Forall₂ fun b e => b.1 = e.1 ∧ M.meaning b.2 [] = .datum (.elem (ι e.2))

theorem Matches.agrees {ι : α → E} {s : Script} {M N : Structure E} {scope : Scope} {env : Env α}
    (h : Matches ι M scope env) (hs : ScopeIn s scope) (hMN : M.Agrees s.arena.size N) :
    Matches ι N scope env := by
  induction h with
  | nil => exact .nil
  | cons hb _ ih =>
    refine .cons ⟨hb.1, ?_⟩ (ih fun b hb => hs b (List.mem_cons_of_mem _ hb))
    rw [← hMN.2 _ (hs.index_lt List.mem_cons_self), hb.2]

theorem Matches.lookup {ι : α → E} {M : Structure E} {scope : Scope} {env : Env α}
    (h : Matches ι M scope env) {x : String} {id : DeclId} (hx : scope.lookup x = some id) :
    ∃ a, env.lookup x = some a ∧ M.meaning id [] = .datum (.elem (ι a)) := by
  induction h with
  | nil => cases hx
  | @cons b e _ _ hb _ ih =>
    obtain ⟨y, id'⟩ := b
    obtain ⟨z, a⟩ := e
    obtain ⟨rfl, hm⟩ := hb
    by_cases hxy : x = y
    · subst hxy
      rw [List.lookup_cons_self, Option.some.injEq] at hx
      exact ⟨a, by rw [List.lookup_cons_self], hx ▸ hm⟩
    · have hne : (x == y) = false := beq_false_of_ne hxy
      rw [List.lookup_cons, hne] at hx
      obtain ⟨a', ha', hm'⟩ := ih hx
      exact ⟨a', by rw [List.lookup_cons, hne]; exact ha', hm'⟩

end TupleLogic.Encoding
