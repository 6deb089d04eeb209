import Mathlib.Data.Set.Card
import Mathlib.Data.Set.Finite.List
import Mathlib.Order.CompletePartialOrder
import TupleLogic.Encoding.Structure
import TupleLogic.Proofs.Instance

/-! What it means for an instance to satisfy a model: the hierarchy of its
signatures, their marks, the columns and multiplicities of its fields, and its
facts. -/

namespace TupleLogic.Relational

variable {α : Type}

/-- The cells that a column ranges over. -/
def Instance.InColumn (I : Instance α) : Column → Cell α → Prop
  | .sig id, .atom a => a ∈ I.sig id
  | .univ, .atom _ => True
  | .int, .int _ => True
  | _, _ => False

/-- How many elements a multiplicity allows. -/
def Multiplicity.Allows {β : Type} (s : Set β) : Multiplicity → Prop
  | .set => True
  | .one => ∃ x, s = {x}
  | .lone => s.Subsingleton
  | .some => s.Nonempty

/-- The signature lies in its parent, or is all of it. -/
def Instance.WithinParent (I : Instance α) (id : SigId) (g : Signature) : Prop :=
  match g.parent with
  | .top => True
  | .extending parent => I.sig id ⊆ I.sig parent
  | .subset parent => if g.has .exact then I.sig id = I.sig parent else I.sig id ⊆ I.sig parent

/-- The signature extends `parent`. -/
def Model.Extends (m : Model) (child parent : SigId) : Prop :=
  ∃ g, m.signature? child = some g ∧ g.parent = .extending parent

/-- Different signatures that have no parent, or that extend the same one. -/
def Model.Siblings (m : Model) (a b : SigId) : Prop :=
  a ≠ b ∧ ∃ g h, m.signature? a = some g ∧ m.signature? b = some h ∧ g.parent = h.parent ∧
    ∀ parent, g.parent ≠ .subset parent

/-- The marks on the number of atoms are the multiplicities of their names. -/
def markMultiplicities : List (Mark × Multiplicity) :=
  [(.one, .one), (.lone, .lone), (.some, .some)]

structure Instance.Satisfies (I : Instance α) (m : Model) : Prop where
  parents : ∀ {id : SigId} {g : Signature}, m.signature? id = some g → I.WithinParent id g
  /-- An abstract signature with extensions holds nothing else. -/
  abstract : ∀ {id : SigId} {g : Signature}, m.signature? id = some g → g.has .abstract →
    (∃ c, m.Extends c id) → ∀ a ∈ I.sig id, ∃ c, m.Extends c id ∧ a ∈ I.sig c
  disjoint : ∀ {a b : SigId}, m.Siblings a b → Disjoint (I.sig a) (I.sig b)
  marks : ∀ {id : SigId} {g : Signature}, m.signature? id = some g →
    ∀ mark ∈ markMultiplicities, g.has mark.1 → mark.2.Allows (I.sig id)
  /-- A field relates the atoms of its signature to what its columns hold. -/
  columns : ∀ {id : FieldId} {f : Field}, m.field? id = some f → ∀ t ∈ I.field id,
    ∃ a ∈ I.sig id.sig, ∃ rest, t = .atom a :: rest ∧ List.Forall₂ I.InColumn f.columns rest
  /-- Each atom of the signature has as many values as the multiplicity says. -/
  multiplicities : ∀ {id : FieldId} {f : Field}, m.field? id = some f → ∀ a ∈ I.sig id.sig,
    f.multiplicity.Allows {rest | .atom a :: rest ∈ I.field id}
  facts : ∀ fact ∈ m.facts, I.Holds fact.body []

namespace Model

variable (m : Model)

/-- Every fact of the model is a formula. -/
def WellTyped : Prop := ∀ fact ∈ m.facts, Relational.WellTyped m fact.body

/-- Integers occur in the columns or in the facts of the model. -/
def InvolvesInt : Prop := (∃ id f, m.field? id = some f ∧ f.usesInt = true) ∨
  ∃ fact ∈ m.facts, Relational.InvolvesInt m fact.body

end Model

/-- The facts count nothing that a number of 64 bits cannot count. -/
def Instance.FactsFit (I : Instance α) (m : Model) : Prop :=
  ∀ fact ∈ m.facts, I.CountsFit fact.body

theorem types_of_inColumns {I : Instance α} {cs : List Column} {cells : List (Cell α)}
    (h : List.Forall₂ I.InColumn cs cells) : cells.map Cell.type = cs.map Column.type := by
  have htype : ∀ {c : Column} {cell : Cell α}, I.InColumn c cell → cell.type = c.type := by
    intro c cell hc
    cases c <;> cases cell
    all_goals first | rfl | exact hc.elim
  induction h with
  | nil => rfl
  | cons hc _ ih => rw [List.map_cons, List.map_cons, htype hc, ih]

/-- The tuples of the fields have the types that the model declares. -/
theorem Instance.Satisfies.typed {I : Instance α} {m : Model} (h : I.Satisfies m) : I.Typed m := by
  intro id f t hf ht
  obtain ⟨a, _, rest, rfl, hrest⟩ := h.columns hf t ht
  rw [List.map_cons, types_of_inColumns hrest]
  rfl

/-- Without integers there are finitely many tuples of each field's columns. -/
theorem Instance.Typed.finite [Finite α] {I : Instance α} {m : Model} (hI : I.Typed m)
    {id : FieldId} {f : Field} (hf : m.field? id = some f) (hint : f.usesInt = false) :
    (I.field id).Finite := by
  refine ((List.finite_length_eq α (f.columns.length + 1)).image (List.map Cell.atom)).subset ?_
  intro t ht
  have htypes := hI hf ht
  have hatoms : t ∈ Set.range (List.map Cell.atom) := by
    rw [Set.range_list_map]
    intro cell hcell
    cases cell with
    | atom a => exact ⟨a, rfl⟩
    | int n =>
      have hmem : .int ∈ t.map Cell.type := List.mem_map.mpr ⟨.int n, hcell, rfl⟩
      rw [htypes] at hmem
      have huses := (HasColumns.field hf).involvesInt hmem
      rw [InvolvesInt, Expr.usesInt, hf, Option.any_some, hint] at huses
      cases huses
  obtain ⟨as, rfl⟩ := hatoms
  have hlen := congrArg List.length htypes
  rw [List.length_map, List.length_map, List.length_cons, List.length_map] at hlen
  exact ⟨as, hlen, rfl⟩

/-! ## Positions in a model -/

variable {m : Model}

theorem mem_numbered {id : SigId} {g : Signature} :
    (id, g) ∈ m.numbered ↔ m.signature? id = some g := by
  rw [Model.numbered, List.mem_map, Model.signature?]
  constructor
  · rintro ⟨⟨h, i⟩, hi, heq⟩
    cases heq
    exact List.mem_zipIdx_iff_getElem?.mp hi
  · intro h
    exact ⟨(g, id.index), List.mem_zipIdx_iff_getElem?.mpr h, rfl⟩

theorem nodup_numbered : (m.numbered.map Prod.fst).Nodup := by
  have hfst : m.numbered.map Prod.fst = (List.range' 0 m.signatures.length).map SigId.mk := by
    rw [Model.numbered, List.map_map, ← List.zipIdx_map_snd 0 m.signatures, List.map_map]
    rfl
  rw [hfst]
  exact List.Nodup.map (fun i j h => SigId.mk.inj h) List.nodup_range'

theorem mem_children {child parent : SigId} :
    child ∈ m.children parent ↔ m.Extends child parent := by
  simp only [Model.children, List.mem_map, List.mem_filter, decide_eq_true_eq]
  constructor
  · rintro ⟨⟨id, g⟩, ⟨hg, hparent⟩, rfl⟩
    exact ⟨g, mem_numbered.mp hg, hparent⟩
  · rintro ⟨g, hg, hparent⟩
    exact ⟨(child, g), ⟨mem_numbered.mpr hg, hparent⟩, rfl⟩

theorem mem_topLevel {id : SigId} :
    id ∈ Encoding.topLevel m ↔ ∃ g, m.signature? id = some g ∧ g.parent = .top := by
  simp only [Encoding.topLevel, List.mem_map, List.mem_filter, decide_eq_true_eq]
  constructor
  · rintro ⟨⟨id, g⟩, ⟨hg, hparent⟩, rfl⟩
    exact ⟨g, mem_numbered.mp hg, hparent⟩
  · rintro ⟨g, hg, hparent⟩
    exact ⟨(id, g), ⟨mem_numbered.mpr hg, hparent⟩, rfl⟩

theorem nodup_children {parent : SigId} : (m.children parent).Nodup :=
  nodup_numbered.sublist (List.filter_sublist.map Prod.fst)

theorem nodup_topLevel : (Encoding.topLevel m).Nodup :=
  nodup_numbered.sublist (List.filter_sublist.map Prod.fst)

theorem mem_fields {id : FieldId} {f : Field} :
    m.field? id = some f ↔
      ∃ g, (id.sig, g) ∈ m.numbered ∧ (f, id.index) ∈ g.fields.zipIdx := by
  simp only [mem_numbered, List.mem_zipIdx_iff_getElem?]
  exact Option.bind_eq_some_iff

end TupleLogic.Relational
