import TupleLogic.Proofs.SignatureEncoding

/-! What the assertions about fields state. The columns of a field are either
those of a product of relations or, where they hold integers, guarded one by
one; both say that the field lies in the product of its columns. -/

namespace TupleLogic.Encoding

open Relational Encoder

variable {v : Vocabulary} {p q : Progress} {int : Prop}

/-! ## Columns of fields -/

/-- The tuples that the columns allow. -/
def rows {α : Type} (I : Instance α) (columns : List Column) : Relation α :=
  {rest | List.Forall₂ I.InColumn columns rest}

theorem mem_rows_singleton {α : Type} {I : Instance α} {c : Column} {cell : Cell α} :
    [cell] ∈ rows I [c] ↔ I.InColumn c cell :=
  ⟨fun h => (List.forall₂_cons.mp h).1, fun h => .cons h .nil⟩

theorem product_rows {α : Type} {I : Instance α} (r : Relation α) (c : Column) (cs : List Column) :
    Tuples.product (Tuples.product r (rows I [c])) (rows I cs) =
      Tuples.product r (rows I (c :: cs)) := by
  ext t
  constructor
  · rintro ⟨_, ⟨xs, hx, ys, hy, rfl⟩, zs, hz, rfl⟩
    refine ⟨xs, hx, ys ++ zs, ?_, (List.append_assoc xs ys zs).symm⟩
    exact List.rel_append hy hz
  · rintro ⟨xs, hx, ys, hy, rfl⟩
    obtain ⟨cell, zs, hcell, hz, rfl⟩ := List.forall₂_cons_left_iff.mp hy
    exact ⟨xs ++ [cell], ⟨xs, hx, [cell], mem_rows_singleton.mpr hcell, rfl⟩, zs, hz,
      List.append_assoc xs [cell] zs⟩

/-- A column that holds no integers has a relation. -/
theorem columnRelation_returns {c : Column} {t : Term} (hv : Declared v p.script)
    (h : Returns (columnRelation v c) p t q) :
    q = p ∧ (∀ {f : Script}, t.Below f p.script.arena.size) ∧
      ∀ {f : Script} {α E : Type} {ι : α → E} {I : Instance α} {M : Structure E},
        Interprets v f ι I M → t.eval f M = relationValue ι (rows I [c]) := by
  have hrows : ∀ {α : Type} {I : Instance α} {s : Set α},
      (∀ cell, I.InColumn c cell ↔ ∃ a ∈ s, .atom a = cell) → rows I [c] = .ofAtoms s := by
    intro α I s hs
    ext t
    constructor
    · intro ht
      obtain ⟨cell, _, hcell, hnil, rfl⟩ := List.forall₂_cons_left_iff.mp ht
      cases hnil
      obtain ⟨a, ha, rfl⟩ := (hs cell).mp hcell
      exact ⟨a, ha, rfl⟩
    · rintro ⟨a, ha, rfl⟩
      exact mem_rows_singleton.mpr ((hs _).mpr ⟨a, ha, rfl⟩)
  cases c with
  | sig id =>
    obtain ⟨d, hd, rfl, rfl⟩ := returns_sigRelation.mp h
    refine ⟨rfl, hv.sig_index_lt hd, fun {f α E ι I M} hM => ?_⟩
    rw [Term.eval_ref, hM.sig hd, hrows]
    intro cell
    cases cell <;> simp [Instance.InColumn]
  | univ =>
    obtain ⟨rfl, rfl⟩ := returns_pure.mp h
    refine ⟨rfl, hv.univ.index_lt, fun {f α E ι I M} hM => ?_⟩
    rw [Term.eval_ref, hM.univ, hrows]
    intro cell
    cases cell <;> simp [Instance.InColumn]
  | int => exact (not_returns_unsupported h).elim

theorem productBound_returns {columns : List Column} {acc t : Term} (hv : Declared v p.script)
    (h : Returns (columns.foldlM (fun acc c => do return .product acc (← columnRelation v c)) acc)
      p t q) :
    q = p ∧ ∀ {f : Script}, acc.Below f p.script.arena.size → t.Below f p.script.arena.size ∧
      ∀ {α E : Type} {ι : α → E} {I : Instance α} {M : Structure E} {r : Relation α},
        Interprets v f ι I M → acc.eval f M = relationValue ι r →
          t.eval f M = relationValue ι (Tuples.product r (rows I columns)) := by
  induction columns generalizing acc with
  | nil =>
    obtain ⟨rfl, rfl⟩ := returns_pure.mp h
    refine ⟨rfl, fun hacc => ⟨hacc, fun {α E ι I M r} _ hr => ?_⟩⟩
    have hprod : Tuples.product r (rows I []) = r := by
      ext t
      constructor
      · rintro ⟨xs, hx, ys, hy, rfl⟩
        cases hy
        rwa [List.append_nil]
      · exact fun ht => ⟨t, ht, [], .nil, List.append_nil t⟩
    rw [hprod, hr]
  | cons c columns ih =>
    rw [List.foldlM_cons] at h
    simp only [returns_bind, returns_pure] at h
    obtain ⟨_, _, ⟨u, _, hu, rfl, rfl⟩, h⟩ := h
    obtain ⟨rfl, hbelow, hvalue⟩ := columnRelation_returns hv hu
    obtain ⟨rfl, h⟩ := ih h
    refine ⟨rfl, fun {f} hacc => ?_⟩
    obtain ⟨ht, heval⟩ := h (f := f) ⟨hacc, hbelow⟩
    refine ⟨ht, fun {α E ι I M r} hM hr => ?_⟩
    rw [← product_rows]
    refine heval hM ?_
    rw [Term.eval_product, hr, hvalue hM, tuples_relationValue, tuples_relationValue,
      ← Tuples.image_product]
    rfl

/-- The value of a cell. -/
def cellValue {α E : Type} (ι : α → E) (cell : Cell α) : TermValue E := .datum (cellDatum ι cell)

theorem hasSort_cell {α E : Type} {ι : α → E} {carrier : String → Set E}
    (hatoms : carrier "Atom" = Set.range ι) {c : ColumnType} {w : TermValue E} :
    w.HasSort carrier c.sort ↔ ∃ cell : Cell α, cell.type = c ∧ w = cellValue ι cell := by
  cases w with
  | datum d =>
    rw [TermValue.hasSort_datum, hasSort_column hatoms]
    simp only [cellValue, TermValue.datum.injEq]
  | set _ | truth _ =>
    refine ⟨fun h => ?_, fun ⟨_, _, h⟩ => nomatch h⟩
    cases c <;> exact h.elim

theorem columnSort_eq (c : Column) : columnSort c = c.type.sort := by
  cases c <;> rfl

/-- Variables for columns, with guards that say that their values are allowed. -/
structure TypesColumns (v : Vocabulary) (columns : List Column) (p : Progress)
    (typed : List (DeclId × Option Term)) (q : Progress) : Prop where
  grows : p.script.AddsVariables q.script
  vars : typed.map Prod.fst = positions p.script.arena.size columns.length
  size : q.script.arena.size = p.script.arena.size + columns.length
  below : ∀ {f : Script}, ∀ t ∈ typed.filterMap Prod.snd, t.Below f q.script.arena.size
  fits : ∀ {f : Script} {α E : Type} {ι : α → E} {I : Instance α} {M : Structure E}
    {vs : List (TermValue E)}, q.script.Extends f → Interprets v f ι I M →
    (M.Fits f (typed.map Prod.fst) vs ↔ ∃ cells : List (Cell α),
      cells.map Cell.type = columns.map Column.type ∧ vs = cells.map (cellValue ι))
  guards : ∀ {f : Script} {α E : Type} {ι : α → E} {I : Instance α} {M : Structure E}
    {cells : List (Cell α)}, Interprets v f ι I M →
    cells.map Cell.type = columns.map Column.type →
    (typed.map Prod.fst).map (fun x => M.meaning x []) = cells.map (cellValue ι) →
    ((∀ t ∈ typed.filterMap Prod.snd, t.Holds f M) ↔ cells ∈ rows I columns)

theorem inDomain_column {sort : TermSort} {c : ColumnType} (hsort : sort = c.sort) {f : Script}
    (hf : (p.withVariable sort).script.Extends f) {α E : Type} {ι : α → E} {I : Instance α}
    {M : Structure E} (hM : Interprets v f ι I M) {w : TermValue E} :
    M.InDomain f p.script.nextId w ↔ ∃ cell : Cell α, cell.type = c ∧ w = cellValue ι cell := by
  subst hsort
  rw [inDomain_withVariable hf, hasSort_cell hM.atoms]

/-- A new variable is a member of a relation if the cell it stands for is. -/
theorem holds_member_single {x : DeclId} {rel : Term} {f : Script} {α E : Type} {ι : α → E}
    (hι : Function.Injective ι) {M : Structure E} {r : Relation α} {cell : Cell α}
    (hrel : rel.eval f M = relationValue ι r) (hx : M.meaning x [] = cellValue ι cell) :
    (Term.member (.nary .tuple [.ref x]) rel).Holds f M ↔ [cell] ∈ r := by
  rw [Term.holds_member, Term.eval_tuple, hrel, List.map_singleton, Term.eval_ref, hx]
  exact tuple_mem_relationValue (t := [cell]) hι

/-- The guard of a column says that the cell is one that the column holds. -/
structure TypesColumn (v : Vocabulary) (c : Column) (p : Progress) (guard : Option Term)
    (q : Progress) : Prop where
  run : q = p.withVariable (columnSort c)
  below : ∀ {f : Script}, ∀ t ∈ guard, t.Below f q.script.arena.size
  holds : ∀ {f : Script} {α E : Type} {ι : α → E} {I : Instance α} {M : Structure E}
    {cell : Cell α}, Interprets v f ι I M → cell.type = c.type →
    M.meaning p.script.nextId [] = cellValue ι cell →
    ((∀ t ∈ guard, t.Holds f M) ↔ I.InColumn c cell)

theorem typedColumn_returns {c : Column} {typed : DeclId × Option Term}
    (hv : Declared v p.script) (h : Returns (typedColumn v c) p typed q) :
    typed.1 = p.script.nextId ∧ TypesColumn v c p typed.2 q := by
  simp only [typedColumn, returns_bind, returns_freshVariable] at h
  obtain ⟨_, _, ⟨rfl, rfl⟩, h⟩ := h
  have hv' := hv.extend (p.withVariable_grows (columnSort c)).extension
  split at h
  · rename_i hc
    obtain ⟨rfl, rfl⟩ := returns_pure.mp h
    refine ⟨rfl, rfl, (fun t ht => by cases ht), fun {f α E ι I M cell} _ htype _ => ?_⟩
    subst hc
    cases cell with
    | atom a => cases htype
    | int n => exact iff_of_true (fun t ht => by cases ht) trivial
  · simp only [returns_bind, returns_liftTerm, returns_pure] at h
    obtain ⟨_, _, ⟨htuple, rfl⟩, rel, _, hrel, rfl, rfl⟩ := h
    cases htuple
    obtain ⟨rfl, hbelow, hvalue⟩ := columnRelation_returns hv' hrel
    refine ⟨rfl, rfl, fun t ht => ?_, fun {f α E ι I M cell} hM _ hx => ?_⟩
    · rw [← Option.some.inj ht]
      refine ⟨⟨?_, trivial⟩, hbelow⟩
      rw [p.withVariable_size]
      exact Nat.lt_succ_self _
    · rw [← mem_rows_singleton, ← holds_member_single hM.injective (hvalue hM) hx]
      exact ⟨fun h => h _ rfl, fun h t ht => Option.some.inj ht ▸ h⟩

theorem typedColumns_returns {columns : List Column} {typed : List (DeclId × Option Term)}
    (hv : Declared v p.script) (h : Returns (columns.mapM (typedColumn v)) p typed q) :
    TypesColumns v columns p typed q := by
  induction columns generalizing p typed with
  | nil =>
    obtain ⟨rfl, rfl⟩ := returns_mapM_nil.mp h
    refine ⟨.refl _, rfl, rfl, nofun, fun {f α E ι I M vs} _ _ => ?_,
      fun {f α E ι I M cells} _ htypes _ => ?_⟩
    · constructor
      · intro h
        cases h
        exact ⟨[], rfl, rfl⟩
      · rintro ⟨cells, htypes, rfl⟩
        rw [List.map_eq_nil_iff.mp htypes]
        exact .nil
    · rw [List.map_eq_nil_iff.mp htypes]
      exact iff_of_true nofun .nil
  | cons c columns ih =>
    obtain ⟨⟨x, guard⟩, s, typed', hx, hrest, rfl⟩ := returns_mapM_cons.mp h
    obtain ⟨hpos, hfirst⟩ := typedColumn_returns hv hx
    obtain rfl : x = p.script.nextId := hpos
    have hrun := hfirst.run
    subst hrun
    have hgrows := p.withVariable_grows (columnSort c)
    have hsize := p.withVariable_size (columnSort c)
    have hrest := ih (hv.extend hgrows.extension) hrest
    have hsplit : ((p.script.nextId, guard) :: typed').filterMap Prod.snd =
        guard.toList ++ typed'.filterMap Prod.snd := by
      cases guard <;> rfl
    refine ⟨hgrows.trans hrest.grows, ?_, ?_, ?_, fun {f α E ι I M vs} hf hM => ?_,
      fun {f α E ι I M cells} hM htypes hmeaning => ?_⟩
    · rw [List.map_cons, hrest.vars, hsize, List.length_cons, Nat.add_comm columns.length 1,
        positions_add]
      rfl
    · rw [hrest.size, hsize, List.length_cons]
      omega
    · intro f t ht
      rw [hsplit, List.mem_append, Option.mem_toList] at ht
      rcases ht with ht | ht
      · exact (hfirst.below t ht).mono hrest.grows.extension.size_le
      · exact hrest.below t ht
    · have hdom := fun w => inDomain_column (w := w) (columnSort_eq c)
        (hrest.grows.extension.trans hf) hM
      rw [List.map_cons, Structure.Fits, List.forall₂_cons_left_iff]
      constructor
      · rintro ⟨w, ws, hw, hws, rfl⟩
        obtain ⟨cell, hcell, rfl⟩ := (hdom w).mp hw
        obtain ⟨cells, hcells, rfl⟩ := (hrest.fits hf hM).mp hws
        exact ⟨cell :: cells, by rw [List.map_cons, hcell, hcells]; rfl, rfl⟩
      · rintro ⟨cells, htypes, rfl⟩
        obtain ⟨cell, cells, rfl, hcell, hcells⟩ := List.map_eq_cons_iff.mp htypes
        exact ⟨_, _, (hdom _).mpr ⟨cell, hcell, rfl⟩, (hrest.fits hf hM).mpr ⟨cells, hcells, rfl⟩,
          rfl⟩
    · obtain ⟨cell, cells, rfl, hcell, hcells⟩ := List.map_eq_cons_iff.mp htypes
      simp only [List.map_cons, List.cons.injEq] at hmeaning
      rw [hsplit, List.forall_mem_append, hrest.guards hM hcells hmeaning.2]
      have hhead : (∀ t ∈ guard.toList, t.Holds f M) ↔ I.InColumn c cell := by
        simp only [Option.mem_toList]
        exact hfirst.holds hM hcell hmeaning.1
      rw [hhead]
      exact List.forall₂_cons.symm

/-! ## Fields -/

section Fields

variable {fid : FieldId} {fd : Field} {owner relation : DeclId} {t : Term}

/-- The field relates the atoms of its signature to what its columns hold. -/
def columnsCondition (fid : FieldId) (fd : Field) : Condition := fun _ I =>
  I.field fid ⊆ Tuples.product (Relation.ofAtoms (I.sig fid.sig)) (rows I fd.columns)

/-- The formula, with variables of its own, says that the condition holds. -/
structure SaysColumns (v : Vocabulary) (fid : FieldId) (fd : Field) (p : Progress) (t : Term)
    (q : Progress) : Prop where
  grows : p.script.AddsVariables q.script
  below : ∀ {f : Script}, q.script.Extends f → t.Below f q.script.arena.size
  truth : ∀ {f : Script} {α E : Type} {ι : α → E} {I : Instance α} {M : Structure E},
    q.script.Extends f → Interprets v f ι I M → (t.Holds f M ↔ columnsCondition fid fd α I)

theorem productTyping_returns (hv : Declared v p.script)
    (howner : v.signatures[fid.sig.index]? = some owner) (hrel : v.field? fid = some relation)
    (h : Returns (productTyping v (.ref owner) (.ref relation) fd.columns) p t q) :
    SaysColumns v fid fd p t q := by
  simp only [productTyping, returns_bind, returns_pure] at h
  obtain ⟨bound, _, hbound, rfl, rfl⟩ := h
  obtain ⟨rfl, hbound⟩ := productBound_returns hv hbound
  refine ⟨.refl _, fun _ => ?_, fun {f α E ι I M} _ hM => ?_⟩
  · exact ⟨hv.field_index_lt hrel, (hbound (hv.sig_index_lt howner)).1⟩
  · have hvalue := (hbound (f := f) (hv.sig_index_lt howner)).2 hM (hM.sig howner)
    rw [Term.holds_subset, Term.eval_ref, hM.field hrel, hvalue, relationValue_subset hM.injective]
    exact Iff.rfl

/-- A field of typed tuples lies in the product of its columns if each tuple
has its cells where they belong. -/
theorem columnsCondition_iff {α : Type} {I : Instance α}
    (htyped : ∀ t ∈ I.field fid, t.map Cell.type = fieldTypes fd) : columnsCondition fid fd α I ↔
      ∀ (a : α) (cells : List (Cell α)), cells.map Cell.type = fd.columns.map Column.type →
        .atom a :: cells ∈ I.field fid → [.atom a] ∈ Relation.ofAtoms (I.sig fid.sig) ∧
          cells ∈ rows I fd.columns := by
  constructor
  · intro h a cells _ ht
    obtain ⟨_, ⟨b, hb, rfl⟩, ys, hy, heq⟩ := h ht
    cases heq
    exact ⟨⟨a, hb, rfl⟩, hy⟩
  · intro h t ht
    obtain ⟨cell, cells, rfl, hcell, hcells⟩ := List.map_eq_cons_iff.mp (htyped t ht)
    cases cell with
    | int n => cases hcell
    | atom a =>
      obtain ⟨ha, hrows⟩ := h a cells hcells ht
      exact ⟨[.atom a], ha, cells, hrows, rfl⟩

/-- The guarded claim, where the variables have the values of a tuple's cells. -/
theorem TypesColumns.guarded_iff {s : Progress} {typed : List (DeclId × Option Term)} {f : Script}
    {α E : Type} {ι : α → E} {I : Instance α} {N : Structure E} {first : DeclId} {a : α}
    {cells : List (Cell α)} (h : TypesColumns v fd.columns s typed q) (hN : Interprets v f ι I N)
    (howner : v.signatures[fid.sig.index]? = some owner) (hrel : v.field? fid = some relation)
    (hcells : cells.map Cell.type = fd.columns.map Column.type)
    (hmeaning : (first :: typed.map Prod.fst).map (N.meaning · []) =
      (.atom a :: cells).map (cellValue ι)) :
    (Term.implies (.member (.nary .tuple ((first :: typed.map Prod.fst).map .ref)) (.ref relation))
      (.conj (.member (.nary .tuple [.ref first]) (.ref owner) ::
        typed.filterMap Prod.snd))).Holds f N ↔
      (.atom a :: cells ∈ I.field fid → [.atom a] ∈ Relation.ofAtoms (I.sig fid.sig) ∧
        cells ∈ rows I fd.columns) := by
  have htuple : (first :: typed.map Prod.fst).map ((fun u : Term => (u.eval f N).toDatum) ∘ .ref) =
      (.atom a :: cells).map (cellDatum ι) := by
    have := congrArg (List.map TermValue.toDatum) hmeaning
    rwa [List.map_map, List.map_map] at this
  simp only [List.map_cons, List.cons.injEq] at hmeaning
  rw [Term.holds_implies, Term.holds_conj, List.forall_mem_cons, Term.holds_member,
    Term.eval_tuple, Term.eval_ref, hN.field hrel, List.map_map, htuple]
  refine imp_congr (tuple_mem_relationValue hN.injective) (and_congr ?_ ?_)
  · exact holds_member_single hN.injective (hN.sig howner) hmeaning.1
  · exact h.guards hN hcells hmeaning.2

theorem guardedTyping_returns (hv : Declared v p.script) (hfd : v.model.field? fid = some fd)
    (howner : v.signatures[fid.sig.index]? = some owner) (hrel : v.field? fid = some relation)
    (h : Returns (guardedTyping v (.ref owner) (.ref relation) fd.columns) p t q) :
    SaysColumns v fid fd p t q := by
  simp only [guardedTyping, returns_bind, returns_freshVariable, returns_liftTerm] at h
  obtain ⟨_, _, ⟨rfl, rfl⟩, _, _, ⟨hsingle, rfl⟩, typed, _, htyped, _, _, ⟨htuple, rfl⟩, ht, rfl⟩ := h
  cases hsingle
  cases htuple
  cases ht
  have hgrows := p.withVariable_grows .atom
  have hsize := p.withVariable_size .atom
  have htyped := typedColumns_returns (hv.extend hgrows.extension) htyped
  have hall := hgrows.trans htyped.grows
  have hvars : p.script.nextId :: typed.map Prod.fst =
      positions p.script.arena.size (1 + fd.columns.length) := by
    rw [htyped.vars, hsize, positions_add]
    rfl
  have hnew : ∀ x ∈ p.script.nextId :: typed.map Prod.fst, p.script.arena.size ≤ x.index ∧
      x.index < q.script.arena.size := by
    intro x hx
    rw [hvars, mem_positions] at hx
    rw [htyped.size, hsize]
    omega
  have hsizes := hall.extension.size_le
  refine ⟨hall, fun hf => ⟨⟨?_, ?_⟩, ?_⟩, fun {f α E ι I M} hf hM => ?_⟩
  · refine Term.belowAll_iff.mpr fun u hu => ?_
    obtain ⟨x, hx, rfl⟩ := List.mem_map.mp hu
    exact (hnew x hx).2
  · exact Nat.lt_of_lt_of_le (hv.field_index_lt hrel) hsizes
  · refine Term.below_conj (List.forall_mem_cons.mpr ⟨?_, fun u hu => htyped.below u hu⟩)
    refine ⟨⟨(hnew _ List.mem_cons_self).2, trivial⟩, ?_⟩
    exact Nat.lt_of_lt_of_le (hv.sig_index_lt howner) hsizes
  · have hfirst := fun w => inDomain_column (v := v) (w := w) (c := .atom) rfl
      (htyped.grows.extension.trans hf) hM
    have hlength : ∀ (a : α) (cells : List (Cell α)),
        cells.map Cell.type = fd.columns.map Column.type →
        (p.script.nextId :: typed.map Prod.fst).length =
          ((.atom a :: cells).map (cellValue ι)).length := by
      intro a cells hcells
      have := congrArg List.length hcells
      rw [hvars]
      simp only [List.length_map, positions, List.length_range', List.length_cons] at this ⊢
      omega
    have hbody := fun (a : α) (cells : List (Cell α))
        (hcells : cells.map Cell.type = fd.columns.map Column.type) =>
      htyped.guarded_iff (hM.agrees hv (hall.extension.trans hf) (M.agrees_assign
        ((.atom a :: cells).map (cellValue ι)) fun x hx => (hnew x hx).1)) howner hrel hcells
          (M.map_meaning_assign (hvars ▸ nodup_positions _ _) (hlength a cells hcells))
    rw [columnsCondition_iff fun t ht => hM.typed hfd ht]
    refine (Term.holds_all _ _).trans ⟨fun h a cells hcells => ?_, fun h vs hvs => ?_⟩
    · refine (hbody a cells hcells).mp (h _ (.cons ?_ ((htyped.fits hf hM).mpr ?_)))
      · exact (hfirst _).mpr ⟨.atom a, rfl, rfl⟩
      · exact ⟨cells, hcells, rfl⟩
    · obtain ⟨w, ws, hw, hws, rfl⟩ := List.forall₂_cons_left_iff.mp hvs
      obtain ⟨cell, hcell, rfl⟩ := (hfirst w).mp hw
      obtain ⟨cells, hcells, rfl⟩ := (htyped.fits hf hM).mp hws
      cases cell with
      | int n => cases hcell
      | atom a => exact (hbody a cells hcells).mpr (h a cells hcells)

variable {id : SigId} {g : Signature} {index : Nat}

theorem states_assertFieldTyping (hfd : v.model.field? ⟨id, index⟩ = some fd) :
    States v int (columnsCondition ⟨id, index⟩ fd) (assertFieldTyping v id g index fd) := by
  intro p u q hv h
  simp only [assertFieldTyping, returns_bind, returns_sigRelation, returns_fieldRelation] at h
  obtain ⟨_, _, ⟨d, hd, rfl, rfl⟩, _, _, ⟨d', hd', rfl, rfl⟩, h⟩ := h
  split at h
  · obtain ⟨t, s, ht, h⟩ := returns_bind.mp h
    rw [returns_assertTerm] at h
    have hsays := guardedTyping_returns hv hfd hd hd' ht
    exact ⟨_, h ▸ asserts_term hsays.grows hsays.below hsays.truth⟩
  · obtain ⟨t, s, ht, h⟩ := returns_bind.mp h
    rw [returns_assertTerm] at h
    have hsays : SaysColumns v ⟨id, index⟩ fd _ t s := productTyping_returns hv hd hd' ht
    exact ⟨_, h ▸ asserts_term hsays.grows hsays.below hsays.truth⟩

/-! ## Multiplicities of fields -/

/-- The atom as the value of the one variable that is bound. -/
theorem assigns_single {α : Type} {I : Instance α} {x : String} {bound : Expr} {atoms : List α}
    {env : Env α} : I.Assigns [⟨[x], bound⟩] [] atoms env ↔
      ∃ a, [.atom a] ∈ I.denote [] bound ∧ atoms = [a] ∧ env = [(x, a)] := by
  constructor
  · rintro (_ | ⟨hlen, hmem, hrest⟩)
    cases hrest
    obtain ⟨a, rfl⟩ := List.length_eq_one_iff.mp hlen
    exact ⟨a, hmem a (List.mem_singleton_self a), rfl, rfl⟩
  · rintro ⟨a, ha, rfl, rfl⟩
    have h : I.Assigns [⟨[x], bound⟩] [] ([a] ++ []) (Env.bind [] [x] [a]) :=
      .cons rfl (fun b hb => List.mem_singleton.mp hb ▸ ha) .nil
    exact h

/-- What an atom is related to. -/
theorem mem_join_ofAtoms {α : Type} {s : Set α} {r : Relation α} {t : List (Cell α)} :
    t ∈ Tuples.join (Relation.ofAtoms s) r ↔ ∃ a ∈ s, .atom a :: t ∈ r := by
  constructor
  · rintro ⟨xs, cell, ys, ⟨a, ha, heq⟩, hr, rfl⟩
    obtain ⟨rfl, rfl⟩ : xs = [] ∧ cell = .atom a := by
      cases xs with
      | nil => exact ⟨rfl, (List.singleton_inj.mp heq).symm⟩
      | cons x xs => simp at heq
    exact ⟨a, ha, hr⟩
  · rintro ⟨a, ha, hr⟩
    exact ⟨[], .atom a, t, ⟨a, ha, rfl⟩, hr, rfl⟩

theorem join_atom {α : Type} (a : α) (r : Relation α) :
    Tuples.join (Relation.ofAtoms {b | some a = some b}) r = {rest | .atom a :: rest ∈ r} := by
  ext t
  rw [mem_join_ofAtoms]
  simp

theorem holds_fieldMultiplicity {α : Type} {I : Instance α} {mult : Multiplicity}
    {op : Relational.UnaryOp} (hop : multiplicityOp? mult = some op) :
    I.Holds (.quantified .all [⟨["this"], .sig id⟩]
        (.unary op (.binary .join (.var "this") (.field fid)))) [] ↔
      ∀ a ∈ I.sig id, mult.Allows {rest | .atom a :: rest ∈ I.field fid} := by
  have hbody : ∀ a, I.Holds (.unary op (.binary .join (.var "this") (.field fid))) [("this", a)] ↔
      mult.Allows {rest | .atom a :: rest ∈ I.field fid} := by
    intro a
    rw [holds_multiplicity hop, ← join_atom]
    simp only [Instance.denote, List.lookup_cons_self]
  have hmem : ∀ a, [.atom a] ∈ I.denote [] (.sig id) ↔ a ∈ I.sig id := by
    intro a
    exact singleAtom_injective.mem_set_image
  simp only [Instance.Holds, assigns_single]
  constructor
  · intro h a ha
    exact (hbody a).mp (h [a] _ ⟨a, (hmem a).mpr ha, rfl, rfl⟩)
  · rintro h atoms env ⟨a, ha, rfl, rfl⟩
    exact (hbody a).mpr (h a ((hmem a).mp ha))

/-- Each atom of the signature has as many values as the field says. -/
def multiplicityCondition (fid : FieldId) (fd : Field) : Condition := fun _ I =>
  ∀ a ∈ I.sig fid.sig, fd.multiplicity.Allows {rest | .atom a :: rest ∈ I.field fid}

theorem states_assertFieldMultiplicity (hfd : v.model.field? ⟨id, index⟩ = some fd)
    (hint : fd.multiplicity ≠ .set → fd.usesInt = true → int) :
    States v int (multiplicityCondition ⟨id, index⟩ fd) (assertFieldMultiplicity v id g index fd) := by
  unfold assertFieldMultiplicity
  split
  · rename_i hop
    refine states_pure fun α I a _ => ?_
    have hset : fd.multiplicity = .set := by
      cases hm : fd.multiplicity with
      | set => rfl
      | one | lone | some =>
        rw [hm] at hop
        cases hop
    rw [hset]
    trivial
  · rename_i op hop
    have hcard := multiplicityOp?_ne_card hop
    by_cases hlen : fd.columns.length = 1
    · simp only [hlen, ne_eq, not_true, if_false]
      refine (states_assertFact ?_ ?_ ?_).congr fun α I => holds_fieldMultiplicity hop
      · have hjoin : HasColumns v.model (.binary .join (.var "this") (.field ⟨id, index⟩))
            ([] ++ fd.columns.map Column.type) := by
          refine .join (.var "this") (.field hfd) fun hnil => ?_
          rw [List.nil_append, List.map_eq_nil_iff] at hnil
          rw [hnil] at hlen
          cases hlen
        refine .quantified ?_ (by simp) (wellTyped_multiplicity hop hjoin)
        exact List.forall_mem_singleton.mpr (.sig id)
      · intro hi
        simp [InvolvesInt, Expr.usesInt, usesIntBound, hcard, hfd, BinaryOp.comparison?] at hi
        refine hint (fun hset => ?_) hi
        rw [hset] at hop
        cases hop
      · intro α I _ c hc
        simp [Expr.counted, countedBound, hcard] at hc
    · intro p u q _ h
      rw [if_pos hlen] at h
      obtain ⟨_, _, h, _⟩ := returns_bind.mp h
      exact (not_returns_unsupported h).elim

end Fields

/-! ## All fields -/

theorem states_forFields {m : Model} {c : FieldId → Field → Condition}
    {assertion : SigId → Signature → Nat → Field → Encoder Unit}
    (h : ∀ {id g index fd}, m.field? ⟨id, index⟩ = some fd →
      States v int (c ⟨id, index⟩ fd) (assertion id g index fd)) :
    States v int (fun α I => ∀ fid fd, m.field? fid = some fd → c fid fd α I)
      (forFields m assertion) := by
  have hall : States v int (fun α I => ∀ x ∈ m.numbered, ∀ y ∈ x.2.fields.zipIdx, c ⟨x.1, y.2⟩ y.1 α I)
      (forFields m assertion) := by
    refine states_forM fun ⟨id, g⟩ hg => states_forM fun ⟨fd, index⟩ hfd => h ?_
    exact mem_fields.mpr ⟨g, hg, hfd⟩
  refine hall.congr fun α I => ⟨fun h fid fd hfd => ?_, fun h x hx y hy => ?_⟩
  · obtain ⟨g, hg, hfd⟩ := mem_fields.mp hfd
    exact h _ hg _ hfd
  · exact h ⟨x.1, y.2⟩ y.1 (mem_fields.mpr ⟨x.2, hx, hy⟩)

end TupleLogic.Encoding
