import TupleLogic.Proofs.Declarations
import TupleLogic.Proofs.Understanding

/-! The terms that encodings are made of. Whatever expression a term comes from,
each reference goes to a variable bound around it or to a function or constant,
each quantifier binds variables that were drawn for it, operators have operands,
and sorts are built from those that every encoding has. Only the literals of
empty sets may have a sort that is no set sort, and such terms are not printed. -/

namespace TupleLogic

/-- A sort built from those that every encoding has. -/
def TermSort.encodable (sort : TermSort) : Bool :=
  sort.legible Encoding.builtinScript.declaresSort

namespace Encoding

/-! ## Sorts -/

section Sorts

open TermSort

variable {e sort sort' : TermSort} {cs : List TermSort}

theorem encodable_set : (TermSort.set e).encodable = true ↔ e.isSet = false ∧ e.encodable = true := by
  simp [encodable, legible]

theorem encodable_tuple :
    (TermSort.tuple cs).encodable = true ↔ cs ≠ [] ∧ ∀ c ∈ cs, c.encodable = true := by
  simp [encodable, legible, legibleAll_iff]

theorem encodable_mkRelation (hcs : ∀ c ∈ cs, c.encodable = true)
    (h : mkRelation cs = .ok sort) : sort.encodable = true := by
  obtain ⟨tuple, htuple, h⟩ := bind_eq_ok.mp h
  obtain ⟨hne, rfl⟩ := mkTuple_eq_ok.mp htuple
  obtain ⟨hset, rfl⟩ := mkSet_eq_ok.mp h
  exact encodable_set.mpr ⟨hset, encodable_tuple.mpr ⟨hne, hcs⟩⟩

theorem encodable_of_columns? (hs : sort.encodable = true) (h : sort.columns? = some cs) :
    ∀ c ∈ cs, c.encodable = true := by
  unfold TermSort.columns? at h
  split at h
  · obtain rfl := Option.some.inj h
    exact (encodable_tuple.mp (encodable_set.mp hs).2).2
  · obtain rfl := Option.some.inj h
    exact (encodable_tuple.mp hs).2
  · cases h

theorem encodable_of_element? (hs : sort.encodable = true) (h : sort.element? = some e) :
    e.encodable = true := by
  unfold TermSort.element? at h
  split at h
  · obtain rfl := Option.some.inj h
    exact (encodable_set.mp hs).2
  · cases h

theorem encodable_of_columnsFor {op : RelationOp} (hs : sort.encodable = true)
    (h : sort.columnsFor op = .ok cs) : ∀ c ∈ cs, c.encodable = true := by
  unfold TermSort.columnsFor at h
  split at h
  · obtain rfl := Except.ok.inj h
    exact (encodable_tuple.mp (encodable_set.mp hs).2).2
  · cases h

theorem encodable_transposed (hs : sort.encodable = true) (h : sort.transposed = .ok sort') :
    sort'.encodable = true := by
  obtain ⟨cs, hcs, h⟩ := bind_eq_ok.mp h
  refine encodable_mkRelation (fun c hc => ?_) h
  exact encodable_of_columnsFor hs hcs c (List.mem_reverse.mp hc)

theorem encodable_closed (hs : sort.encodable = true) (h : sort.closed = .ok sort') :
    sort'.encodable = true := by
  obtain ⟨cs, _, h⟩ := bind_eq_ok.mp h
  split at h
  · split at h
    · obtain rfl := pure_eq_ok.mp h
      exact hs
    · cases h
  · cases h

theorem encodable_multiplied {l r : TermSort} (hl : l.encodable = true) (hr : r.encodable = true)
    (h : l.multiplied r = .ok sort) : sort.encodable = true := by
  obtain ⟨lc, hlc, h⟩ := bind_eq_ok.mp h
  obtain ⟨rc, hrc, h⟩ := bind_eq_ok.mp h
  refine encodable_mkRelation (fun c hc => ?_) h
  rcases List.mem_append.mp hc with hc | hc
  · exact encodable_of_columnsFor hl hlc c hc
  · exact encodable_of_columnsFor hr hrc c hc

theorem encodable_joined {l r : TermSort} (hl : l.encodable = true) (hr : r.encodable = true)
    (h : l.joined r = .ok sort) : sort.encodable = true := by
  obtain ⟨lc, hlc, h⟩ := bind_eq_ok.mp h
  obtain ⟨rc, hrc, h⟩ := bind_eq_ok.mp h
  obtain ⟨_, h⟩ := checked_eq_ok.mp h
  split at h
  · split at h
    · refine encodable_mkRelation (fun c hc => ?_) h
      rcases List.mem_append.mp hc with hc | hc
      · exact encodable_of_columnsFor hl hlc c (List.mem_of_mem_dropLast hc)
      · exact encodable_of_columnsFor hr hrc c (List.mem_of_mem_tail hc)
    · cases h
  · cases h

theorem encodable_selected {column : Int} (hs : sort.encodable = true)
    (h : sort.selected column = .ok sort') : sort'.encodable = true := by
  unfold TermSort.selected at h
  split at h
  · split at h
    · rename_i c hc
      obtain rfl := Except.ok.inj h
      split at hc
      · cases hc
      · exact (encodable_tuple.mp hs).2 _ (List.mem_of_getElem? hc)
    · cases h
  · cases h

end Sorts

/-! ## Terms -/

/-- A variable that was drawn after the built-in declarations. -/
def IsDrawn (s : Script) (id : DeclId) : Prop :=
  builtinScript.arena.size ≤ id.index ∧
    ∃ name sort, s.arena[id.index]? = some (.variable name sort)

inductive Grounded (s : Script) : List DeclId → Term → Prop
  | bound {bound : List DeclId} {id : DeclId} : id ∈ bound → Grounded s bound (.ref id)
  | declared {bound : List DeclId} {id : DeclId} : s.precedes 0 id = true →
    Grounded s bound (.ref id)
  | int {bound : List DeclId} {n : Int} : Text.fitsSigned64 n = true → Grounded s bound (.int n)
  | bool {bound : List DeclId} {b : Bool} : Grounded s bound (.bool b)
  | emptySet {bound : List DeclId} {sort : TermSort} : sort.encodable = true →
    Grounded s bound (.emptySet sort)
  | unary {bound : List DeclId} {op : UnaryOp} {a : Term} : Grounded s bound a →
    Grounded s bound (.unary op a)
  | binary {bound : List DeclId} {op : BinaryOp} {a b : Term} (ha : Grounded s bound a)
    (hb : Grounded s bound b) (hop : op ≠ .select) : Grounded s bound (.binary op a b)
  /-- Only first columns are selected. -/
  | first {bound : List DeclId} {a : Term} : Grounded s bound a → Grounded s bound (.select 0 a)
  | nary {bound : List DeclId} {op : NaryOp} {args : List Term} : op.fewest ≤ args.length →
    (∀ t ∈ args, Grounded s bound t) → Grounded s bound (.nary op args)
  | quantified {bound : List DeclId} {q : Quantifier} {vars : List DeclId} {body : Term} :
    vars ≠ [] → (∀ x ∈ vars, IsDrawn s x) → Grounded s (vars.reverse ++ bound) body →
    Grounded s bound (.quantified q vars body)
  /-- Only the functions that give tuples of integers are called. -/
  | value {bound : List DeclId} {w : IntSort} {a : Term} : w ∈ intSorts → Grounded s bound a →
    Grounded s bound (w.valueOf a)

variable {s t : Script} {bound bound' : List DeclId}

theorem IsDrawn.extend {id : DeclId} (h : IsDrawn s id) (hst : s.Extends t) : IsDrawn t id := by
  obtain ⟨hle, name, sort, hd⟩ := h
  exact ⟨hle, name, sort, hst.decl hd⟩

theorem append_subset_append {xs : List DeclId} (h : bound ⊆ bound') : xs ++ bound ⊆ xs ++ bound' :=
  fun x hx => by
    rw [List.mem_append] at hx ⊢
    exact hx.imp_right fun hx => h hx

/-- More declarations and more bound variables do no harm. -/
theorem Grounded.mono {a : Term} (h : Grounded s bound a) (hst : s.Extends t)
    (hb : bound ⊆ bound') : Grounded t bound' a := by
  induction h generalizing bound' with
  | bound hid => exact .bound (hb hid)
  | declared hid => exact .declared (hst.precedes (Nat.le_refl 0) hid)
  | int hn => exact .int hn
  | bool => exact .bool
  | emptySet hs => exact .emptySet hs
  | unary _ ih => exact .unary (ih hb)
  | binary _ _ hop iha ihb => exact .binary (iha hb) (ihb hb) hop
  | first _ ih => exact .first (ih hb)
  | nary hlen _ ih => exact .nary hlen fun t ht => ih t ht hb
  | quantified hne hvars _ ih =>
    exact .quantified hne (fun x hx => (hvars x hx).extend hst)
      (ih (append_subset_append hb))
  | value hw _ ih => exact .value hw (ih hb)

theorem Grounded.extend {a : Term} (h : Grounded s bound a) (hst : s.Extends t) :
    Grounded t bound a :=
  h.mono hst (List.Subset.refl _)

/-! ## Terms built by rule -/

section Build

variable {ts : List Term} {u : Term}

theorem grounded_conj (h : ∀ a ∈ ts, Grounded s bound a) : Grounded s bound (.conj ts) := by
  unfold Term.conj
  split
  · exact .bool
  · exact h _ (List.mem_singleton.mpr rfl)
  · rename_i hnil _
    refine .nary ?_ h
    show 1 ≤ ts.length
    exact List.length_pos_iff.mpr hnil

theorem grounded_disj (h : ∀ a ∈ ts, Grounded s bound a) : Grounded s bound (.disj ts) := by
  unfold Term.disj
  split
  · exact .bool
  · exact h _ (List.mem_singleton.mpr rfl)
  · rename_i hnil _
    refine .nary ?_ h
    show 1 ≤ ts.length
    exact List.length_pos_iff.mpr hnil

theorem grounded_conjNontrivial (h : ∀ a ∈ ts, Grounded s bound a) :
    Grounded s bound (conjNontrivial ts) :=
  grounded_conj fun a ha => h a (List.mem_of_mem_filter ha)

theorem grounded_mkTuple (h : ∀ a ∈ ts, Grounded s bound a) (hu : Term.mkTuple ts = .ok u) :
    Grounded s bound u := by
  unfold Term.mkTuple at hu
  split at hu
  · cases hu
  · rename_i hne
    obtain rfl := Except.ok.inj hu
    refine .nary ?_ h
    show 1 ≤ ts.length
    exact List.length_pos_iff.mpr fun hnil => hne (List.isEmpty_iff.mpr hnil)

theorem grounded_mkTuple_ref {x : DeclId} (hx : x ∈ bound) (hu : Term.mkTuple [.ref x] = .ok u) :
    Grounded s bound u :=
  grounded_mkTuple (List.forall_mem_singleton.mpr (.bound hx)) hu

theorem grounded_distinct (h : ∀ a ∈ ts, Grounded s bound a) (hu : Term.distinct ts = .ok u) :
    Grounded s bound u := by
  unfold Term.distinct at hu
  split at hu
  · cases hu
  · rename_i hlen
    obtain rfl := Except.ok.inj hu
    exact .nary (Nat.not_lt.mp hlen) h

theorem grounded_foldl_union {a : Term} (ha : Grounded s bound a)
    (h : ∀ a ∈ ts, Grounded s bound a) : Grounded s bound (ts.foldl .union a) := by
  induction ts generalizing a with
  | nil => exact ha
  | cons b ts ih =>
    rw [List.forall_mem_cons] at h
    exact ih (.binary ha h.1 (by decide)) h.2

theorem grounded_unionAll (h : ∀ a ∈ ts, Grounded s bound a) (hu : Term.unionAll ts = .ok u) :
    Grounded s bound u := by
  unfold Term.unionAll at hu
  split at hu
  · cases hu
  · obtain rfl := Except.ok.inj hu
    rw [List.forall_mem_cons] at h
    exact grounded_foldl_union h.1 h.2

theorem grounded_quantify {q : Quantifier} {vars : List DeclId} {body : Term}
    (hvars : ∀ x ∈ vars, IsDrawn s x) (hbody : Grounded s (vars ++ bound) body)
    (hu : Term.quantify q vars body = .ok u) : Grounded s bound u := by
  unfold Term.quantify at hu
  split at hu
  · cases hu
  · rename_i hne
    obtain rfl := Except.ok.inj hu
    refine .quantified (fun hnil => hne (List.isEmpty_iff.mpr hnil)) hvars ?_
    exact hbody.mono (.refl s) fun x hx => by simpa using hx

end Build

/-! ## Sorts of terms -/

theorem encodable_of_sortsOf {args : List Term} {sorts : List TermSort}
    (ih : ∀ a ∈ args, ∀ {sort}, s.sortOf a = .ok sort → sort.encodable = true)
    (h : s.sortsOf args = .ok sorts) : ∀ sort ∈ sorts, sort.encodable = true := by
  induction args generalizing sorts with
  | nil =>
    cases h
    exact nofun
  | cons a args ihargs =>
    rw [List.forall_mem_cons] at ih
    rw [Script.sortsOf] at h
    obtain ⟨sort, hsort, h⟩ := bind_eq_ok.mp h
    obtain ⟨sorts, hsorts, h⟩ := bind_eq_ok.mp h
    obtain rfl := pure_eq_ok.mp h
    exact List.forall_mem_cons.mpr ⟨ih.1 hsort, ihargs ih.2 hsorts⟩

theorem encodable_of_sortOfLast {args : List Term} {sort : TermSort}
    (ih : ∀ a ∈ args, ∀ {sort}, s.sortOf a = .ok sort → sort.encodable = true)
    (h : s.sortOfLast args = .ok sort) : sort.encodable = true := by
  induction args with
  | nil => cases h
  | cons a args ihargs =>
    rw [List.forall_mem_cons] at ih
    rw [Script.sortOfLast] at h
    split at h
    · exact ih.1 h
    · exact ihargs ih.2 h

theorem encodable_of_unary {op : UnaryOp} {a : Term} {sort : TermSort}
    (ih : ∀ {sort}, s.sortOf a = .ok sort → sort.encodable = true)
    (h : s.sortOf (.unary op a) = .ok sort) : sort.encodable = true := by
  cases op with
  | not =>
    rw [Script.sortOf] at h
    obtain rfl := Except.ok.inj h
    rfl
  | singleton =>
    rw [Script.sortOf] at h
    obtain ⟨e, he, h⟩ := bind_eq_ok.mp h
    obtain ⟨hset, rfl⟩ := TermSort.mkSet_eq_ok.mp h
    exact encodable_set.mpr ⟨hset, ih he⟩
  | transpose =>
    rw [Script.sortOf] at h
    obtain ⟨e, he, h⟩ := bind_eq_ok.mp h
    exact encodable_transposed (ih he) h
  | closure =>
    rw [Script.sortOf] at h
    obtain ⟨e, he, h⟩ := bind_eq_ok.mp h
    exact encodable_closed (ih he) h
  | complement =>
    rw [Script.sortOf] at h
    exact ih h

theorem encodable_of_binary {op : BinaryOp} {a b : Term} {sort : TermSort} (hop : op ≠ .select)
    (iha : ∀ {sort}, s.sortOf a = .ok sort → sort.encodable = true)
    (ihb : ∀ {sort}, s.sortOf b = .ok sort → sort.encodable = true)
    (h : s.sortOf (.binary op a b) = .ok sort) : sort.encodable = true := by
  cases op with
  | implies | eq | member | subset | lt | le | gt | ge =>
    rw [Script.sortOf] at h
    obtain rfl := Except.ok.inj h
    rfl
  | union | intersection | difference =>
    rw [Script.sortOf] at h
    obtain ⟨l, hl, h⟩ := bind_eq_ok.mp h
    obtain ⟨r, _, h⟩ := bind_eq_ok.mp h
    split at h
    · obtain rfl := pure_eq_ok.mp h
      exact iha hl
    · cases h
  | join =>
    rw [Script.sortOf] at h
    obtain ⟨l, hl, h⟩ := bind_eq_ok.mp h
    obtain ⟨r, hr, h⟩ := bind_eq_ok.mp h
    exact encodable_joined (iha hl) (ihb hr) h
  | product =>
    rw [Script.sortOf] at h
    obtain ⟨l, hl, h⟩ := bind_eq_ok.mp h
    obtain ⟨r, hr, h⟩ := bind_eq_ok.mp h
    exact encodable_multiplied (iha hl) (ihb hr) h
  | select => exact absurd rfl hop

theorem encodable_of_nary {op : NaryOp} {args : List Term} {sort : TermSort}
    (ih : ∀ a ∈ args, ∀ {sort}, s.sortOf a = .ok sort → sort.encodable = true)
    (h : s.sortOf (.nary op args) = .ok sort) : sort.encodable = true := by
  cases op with
  | and | or | distinct =>
    rw [Script.sortOf] at h
    obtain rfl := Except.ok.inj h
    rfl
  | tuple =>
    rw [Script.sortOf] at h
    obtain ⟨sorts, hsorts, h⟩ := bind_eq_ok.mp h
    obtain ⟨hne, rfl⟩ := TermSort.mkTuple_eq_ok.mp h
    exact encodable_tuple.mpr ⟨hne, encodable_of_sortsOf ih hsorts⟩
  | insert =>
    rw [Script.sortOf] at h
    exact encodable_of_sortOfLast ih h

section SortOf

variable (harena : ∀ {i : Nat} {d : Declaration}, s.arena[i]? = some d → d.sort.encodable = true)

include harena

theorem encodable_of_decl {id : DeclId} {sort : TermSort}
    (h : (do return (← s.decl id).sort) = .ok sort) : sort.encodable = true := by
  obtain ⟨d, hd, h⟩ := bind_eq_ok.mp h
  obtain rfl := pure_eq_ok.mp h
  exact harena (Script.decl_eq_ok.mp hd)

/-- Where all declarations have encodable sorts, so have all terms. -/
theorem Grounded.encodable_sortOf {a : Term} (ha : Grounded s bound a) {sort : TermSort}
    (h : s.sortOf a = .ok sort) : sort.encodable = true := by
  induction ha generalizing sort with
  | bound _ | declared _ =>
    rw [Script.sortOf] at h
    exact encodable_of_decl harena h
  | int _ | bool | quantified _ _ _ _ =>
    rw [Script.sortOf] at h
    obtain rfl := Except.ok.inj h
    rfl
  | emptySet hs =>
    rw [Script.sortOf] at h
    split at h
    · obtain rfl := Except.ok.inj h
      exact hs
    · cases h
  | unary _ ih => exact encodable_of_unary ih h
  | binary _ _ hop iha ihb => exact encodable_of_binary hop iha ihb h
  | first _ ih =>
    rw [Term.select, Script.sortOf] at h
    obtain ⟨e, he, h⟩ := bind_eq_ok.mp h
    exact encodable_selected (ih he) h
  | nary _ _ ih => exact encodable_of_nary ih h
  | value _ _ _ =>
    rw [IntSort.valueOf, Script.sortOf] at h
    split at h
    · exact encodable_of_decl harena h
    · cases h

end SortOf

/-! ## Encoded expressions -/

/-- The term and the guards may mention the variables that are owed. -/
structure Encoded.Grounded (s : Script) (bound : List DeclId) (e : Encoded) : Prop where
  vars : ∀ x ∈ e.witnesses.flatMap Witness.vars, IsDrawn s x
  guards : ∀ w ∈ e.witnesses, Encoding.Grounded s (e.witnesses.flatMap Witness.vars ++ bound) w.guard
  term : Encoding.Grounded s (e.witnesses.flatMap Witness.vars ++ bound) e.term

namespace Encoded.Grounded

variable {a b e : Encoded} {u : Term} {w : Witness}

theorem plain (h : Encoding.Grounded s bound u) : Encoded.Grounded s bound ⟨u, []⟩ :=
  ⟨nofun, nofun, h⟩

theorem mono (h : e.Grounded s bound) (hst : s.Extends t) (hb : bound ⊆ bound') :
    e.Grounded t bound' where
  vars x hx := (h.vars x hx).extend hst
  guards w hw := (h.guards w hw).mono hst (append_subset_append hb)
  term := h.term.mono hst (append_subset_append hb)

theorem extend (h : e.Grounded s bound) (hst : s.Extends t) : e.Grounded t bound :=
  h.mono hst (List.Subset.refl _)

/-- Another term that owes the same. -/
theorem withTerm (h : e.Grounded s bound)
    (hu : Encoding.Grounded s (e.witnesses.flatMap Witness.vars ++ bound) u) :
    Encoded.Grounded s bound { e with term := u } :=
  ⟨h.vars, h.guards, hu⟩

/-- Two terms are put together, and both debts are kept. -/
theorem both (ha : a.Grounded s bound) (hb : b.Grounded s bound) {build : Term → Term → Term}
    (hbuild : ∀ {bound c d}, Encoding.Grounded s bound c → Encoding.Grounded s bound d →
      Encoding.Grounded s bound (build c d)) :
    Encoded.Grounded s bound ⟨build a.term b.term, a.witnesses ++ b.witnesses⟩ := by
  have hleft : a.witnesses.flatMap Witness.vars ++ bound ⊆
      (a.witnesses ++ b.witnesses).flatMap Witness.vars ++ bound := by
    rw [List.flatMap_append]
    simp
  have hright : b.witnesses.flatMap Witness.vars ++ bound ⊆
      (a.witnesses ++ b.witnesses).flatMap Witness.vars ++ bound := by
    rw [List.flatMap_append]
    simp
  refine ⟨fun x hx => ?_, fun w hw => ?_,
    hbuild (ha.term.mono (.refl s) hleft) (hb.term.mono (.refl s) hright)⟩
  · rw [List.flatMap_append, List.mem_append] at hx
    exact hx.elim (ha.vars x) (hb.vars x)
  · rcases List.mem_append.mp hw with hw | hw
    · exact (ha.guards w hw).mono (.refl s) hleft
    · exact (hb.guards w hw).mono (.refl s) hright

/-- One more witness is owed, whose guard may mention what was owed before. -/
theorem owing (he : e.Grounded s bound) (hw : ∀ x ∈ w.vars, IsDrawn s x)
    (hguard : Encoding.Grounded s (e.witnesses.flatMap Witness.vars ++ (w.vars ++ bound)) w.guard)
    (hu : Encoding.Grounded s (w.vars ++ bound) u) :
    Encoded.Grounded s bound ⟨u, e.witnesses ++ [w]⟩ := by
  have hvars : (e.witnesses ++ [w]).flatMap Witness.vars ++ bound =
      e.witnesses.flatMap Witness.vars ++ (w.vars ++ bound) := by simp
  refine ⟨fun x hx => ?_, fun w' hw' => ?_, ?_⟩
  · rw [List.flatMap_append, List.mem_append, List.flatMap_singleton] at hx
    exact hx.elim (he.vars x) (hw x)
  · rw [hvars]
    rcases List.mem_append.mp hw' with hw' | hw'
    · exact (he.guards w' hw').mono (.refl s) (append_subset_append (List.subset_append_right _ _))
    · rw [List.mem_singleton] at hw'
      exact hw' ▸ hguard
  · rw [hvars]
    exact hu.mono (.refl s) (List.subset_append_right _ _)

/-- What is owed inside the scope of a witness is owed after it. -/
theorem within (he : e.Grounded s (w.vars ++ bound)) (hw : ∀ x ∈ w.vars, IsDrawn s x)
    (hguard : Encoding.Grounded s (w.vars ++ bound) w.guard) :
    Encoded.Grounded s bound ⟨e.term, w :: e.witnesses⟩ := by
  have hvars : e.witnesses.flatMap Witness.vars ++ (w.vars ++ bound) ⊆
      (w :: e.witnesses).flatMap Witness.vars ++ bound := by
    intro x hx
    simp only [List.flatMap_cons, List.mem_append] at hx ⊢
    tauto
  refine ⟨fun x hx => ?_, fun w' hw' => ?_, he.term.mono (.refl s) hvars⟩
  · rw [List.flatMap_cons, List.mem_append] at hx
    exact hx.elim (hw x) (he.vars x)
  · rcases List.mem_cons.mp hw' with rfl | hw'
    · exact hguard.mono (.refl s) (List.Subset.trans (List.subset_append_right _ _) hvars)
    · exact (he.guards w' hw').mono (.refl s) hvars

/-- The operands of a conjunction, with all that they owe. -/
theorem all {es : List Encoded} (h : ∀ e ∈ es, e.Grounded s bound) :
    Encoded.Grounded s bound
      ⟨conjNontrivial (es.map Encoded.term), es.flatMap Encoded.witnesses⟩ := by
  have hvars : ∀ e ∈ es, e.witnesses.flatMap Witness.vars ++ bound ⊆
      (es.flatMap Encoded.witnesses).flatMap Witness.vars ++ bound := by
    intro e he x hx
    simp only [List.mem_append, List.mem_flatMap] at hx ⊢
    refine hx.imp_left fun ⟨w, hw, hx⟩ => ⟨w, ⟨e, he, hw⟩, hx⟩
  refine ⟨fun x hx => ?_, fun w hw => ?_, grounded_conjNontrivial fun u hu => ?_⟩
  · obtain ⟨w, hw, hx⟩ := List.mem_flatMap.mp hx
    obtain ⟨e, he, hw⟩ := List.mem_flatMap.mp hw
    exact (h e he).vars x (List.mem_flatMap.mpr ⟨w, hw, hx⟩)
  · obtain ⟨e, he, hw⟩ := List.mem_flatMap.mp hw
    exact ((h e he).guards w hw).mono (.refl s) (hvars e he)
  · obtain ⟨e, he, rfl⟩ := List.mem_map.mp hu
    exact (h e he).term.mono (.refl s) (hvars e he)

theorem close (h : e.Grounded s bound) (hu : e.close = .ok u) : Encoding.Grounded s bound u := by
  unfold Encoded.close at hu
  split at hu
  · rename_i hnil
    obtain rfl := Except.ok.inj hu
    have hterm := h.term
    rw [List.isEmpty_iff.mp hnil] at hterm
    exact hterm
  · refine grounded_quantify h.vars (grounded_conjNontrivial fun a ha => ?_) hu
    rcases List.mem_append.mp ha with ha | ha
    · obtain ⟨w, hw, rfl⟩ := List.mem_map.mp ha
      exact h.guards w hw
    · rw [List.mem_singleton] at ha
      exact ha ▸ h.term

end Encoded.Grounded

end Encoding

end TupleLogic
