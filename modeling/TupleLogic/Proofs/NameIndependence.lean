import TupleLogic.Proofs.DrawnNames

/-! Encodings do not depend on where the counters of generated names stand. Run
from another supply, an encoder gives the same result and leaves the same script
with its generated declarations redrawn. Each step has this property; a drawn name
clashes with none, because the names that a model brings have another form and
those of a counter are numbered. -/

namespace TupleLogic

theorem Declaration.hasForm_of_source? {d : Declaration} {source : Source}
    (h : d.source? = some source) : hasForm source.mark d.name = true := by
  cases d with
  | definition => cases h
  | _ =>
    simp only [source?] at h
    split at h
    · obtain rfl := Option.some.inj h
      assumption
    · cases h

theorem Source.mark_injective {source source' : Source} (h : source.mark = source'.mark) :
    source = source' := by
  cases source <;> cases source' <;> first | rfl | exact absurd h (by decide)

/-- A declaration that a script finds by its name: no bound variable, and one of
generated form only if it is generated. -/
structure Declaration.Findable (d : Declaration) : Prop where
  unbound : d.source? ≠ some .bound
  form : ∀ source ≠ Source.bound, hasForm source.mark d.name = true → d.source? = some source

theorem Declaration.findable_of_source? {d : Declaration} {source : Source}
    (h : d.source? = some source) (hne : source ≠ .bound) : d.Findable where
  unbound := by
    rw [h]
    exact fun hbound => hne (Option.some.inj hbound)
  form source' _ hform := by
    rw [h, Source.mark_injective (hasForm_inj hform (hasForm_of_source? h))]

theorem Declaration.Findable.redrawn {d : Declaration} (h : d.Findable) (names : NameSupply) :
    (d.redrawn names).1.Findable := by
  cases hd : d.source? with
  | none =>
    rw [redrawn_of_none hd]
    exact h
  | some source =>
    have hsource := (redrawn_eq names d).2.2
    rw [hd] at hsource
    refine findable_of_source? hsource ?_
    rintro rfl
    exact h.unbound hd

theorem lookup_map_congr {l : List (String × DeclId)} {f : String × DeclId → String} {name : String}
    (h : ∀ entry ∈ l, f entry = name ↔ entry.1 = name) :
    (l.map fun entry => (f entry, entry.2)).lookup name = l.lookup name := by
  induction l with
  | nil => rfl
  | cons entry l ih =>
    obtain ⟨hentry, hl⟩ := List.forall_mem_cons.mp h
    have hbeq : (name == f entry) = (name == entry.1) := by
      rw [Bool.eq_iff_iff, beq_iff_eq, beq_iff_eq, eq_comm, hentry, eq_comm]
    rw [List.map_cons, List.lookup_cons, List.lookup_cons, hbeq, ih hl]

/-! ## Scripts -/

namespace Script

/-- The script with new names for its generated declarations. -/
def redrawn (names : NameSupply) (s : Script) : Script :=
  { s with
    arena := (redraw names s.arena.toList).1.toArray
    index := s.index.map fun entry =>
      (((redraw names s.arena.toList).1[entry.2.index]?.map Declaration.name).getD entry.1, entry.2) }

/-- Names lead to declarations of that name. -/
def Labelled (s : Script) : Prop :=
  ∀ entry ∈ s.index, ∃ d, s.arena[entry.2.index]? = some d ∧ d.name = entry.1 ∧ d.Findable

variable {s : Script} (names : NameSupply)

theorem arena_add (s : Script) (d : Declaration) : (s.add d).arena = s.arena.push d := rfl

theorem arena_addVariable (s : Script) (name : String) (sort : TermSort) :
    (s.addVariable name sort).2.arena = s.arena.push (.variable name sort) := rfl

theorem size_redrawn : (s.redrawn names).arena.size = s.arena.size := by
  simp [redrawn, length_redraw]

theorem redrawn_getElem? (s : Script) (i : Nat) : ∃ supply, (s.redrawn names).arena[i]? =
    (s.arena[i]?).map fun d => (d.redrawn supply).1 := by
  obtain ⟨supply, h⟩ := redraw_getElem? names s.arena.toList i
  exact ⟨supply, by simpa [redrawn] using h⟩

theorem sort_decl_redrawn (id : DeclId) :
    (do return (← (s.redrawn names).decl id).sort) = (do return (← s.decl id).sort) := by
  obtain ⟨supply, h⟩ := s.redrawn_getElem? names id.index
  rw [decl, decl, h]
  cases s.arena[id.index]? with
  | none => rfl
  | some d => exact congrArg Except.ok (Declaration.redrawn_eq supply d).1

/-- An entry leads to a redrawn declaration. -/
theorem Labelled.entry (h : s.Labelled) {entry : String × DeclId} (he : entry ∈ s.index) :
    ∃ (d : Declaration) (supply : NameSupply), d.name = entry.1 ∧ d.Findable ∧
      (redraw names s.arena.toList).1[entry.2.index]? = some (d.redrawn supply).1 := by
  obtain ⟨d, hd, hname, hfindable⟩ := h entry he
  obtain ⟨supply, hsupply⟩ := redraw_getElem? names s.arena.toList entry.2.index
  rw [Array.getElem?_toList, hd] at hsupply
  exact ⟨d, supply, hname, hfindable, hsupply⟩

/-- A name that has no generated form means the same after redrawing. -/
theorem Labelled.lookup_redrawn (h : s.Labelled) {name : String}
    (hname : hasForm 'a' name = false ∧ hasForm 'S' name = false) :
    (s.redrawn names).lookup name = s.lookup name := by
  refine lookup_map_congr fun entry he => ?_
  obtain ⟨d, supply, hd, hfindable, hredrawn⟩ := h.entry names he
  rw [hredrawn, Option.map_some, Option.getD_some, ← hd]
  cases hsource : d.source? with
  | none => rw [Declaration.redrawn_of_none hsource]
  | some source =>
    -- both names have the form of the counter, which `name` has not
    have hother {other : String} (hform : hasForm source.mark other = true) : other ≠ name := by
      rintro rfl
      cases source with
      | bound => exact hfindable.unbound hsource
      | element => exact Bool.false_ne_true (hname.1.symm.trans hform)
      | set => exact Bool.false_ne_true (hname.2.symm.trans hform)
    have hdrawn : hasForm source.mark (d.redrawn supply).1.name = true := by
      rw [Declaration.redrawn_of_some hsource, Declaration.name_rename, supply.draw_name]
      exact source.hasForm_nameAt _
    exact iff_of_false (hother hdrawn) (hother (Declaration.hasForm_of_source? hsource))

/-- The next name of a counter is free. -/
theorem Labelled.lookup_fresh (h : s.Labelled) {source : Source} (hsource : source ≠ .bound) :
    (s.redrawn names).lookup
      (source.nameAt ((redraw names s.arena.toList).2.count source + 1)) = none := by
  refine List.lookup_eq_none_iff.mpr fun entry he => ?_
  obtain ⟨entry, hentry, rfl⟩ := List.mem_map.mp he
  obtain ⟨d, supply, _, hfindable, hredrawn⟩ := h.entry names hentry
  rw [hredrawn, Option.map_some, Option.getD_some, bne_iff_ne]
  change _ ≠ (d.redrawn supply).1.name
  intro hname
  have hd : (d.redrawn supply).1.source? = some source := by
    refine (hfindable.redrawn supply).form source hsource ?_
    rw [← hname]
    exact source.hasForm_nameAt _
  -- so it is among the names that the counter has given out
  have hmem : (d.redrawn supply).1 ∈ drawnFrom (redraw names s.arena.toList).1 source := by
    exact List.mem_filter.mpr ⟨List.mem_of_getElem? hredrawn, decide_eq_true hd⟩
  have hnumbered := List.mem_map_of_mem (f := Declaration.name) hmem
  rw [drawnFrom_redraw, ← hname] at hnumbered
  obtain ⟨i, hi, hname⟩ := List.mem_map.mp hnumbered
  have hcount := Source.nameAt_injective hname
  rw [count_redraw] at hcount
  have hi := List.mem_range.mp hi
  omega

theorem redraw_push (s : Script) (d : Declaration) : redraw names (s.arena.push d).toList =
    ((redraw names s.arena.toList).1 ++ [(d.redrawn (redraw names s.arena.toList).2).1],
      (d.redrawn (redraw names s.arena.toList).2).2) := by
  rw [Array.toList_push, redraw_append]

theorem Labelled.map_push (h : s.Labelled) (d : Declaration) :
    (s.index.map fun entry => (((redraw names (s.arena.push d).toList).1[entry.2.index]?.map
      Declaration.name).getD entry.1, entry.2)) = (s.redrawn names).index := by
  refine List.map_congr_left fun entry he => ?_
  obtain ⟨d', supply, _, _, hd'⟩ := h.entry names he
  have hlt := (List.getElem?_eq_some_iff.mp hd').1
  rw [redraw_push, List.getElem?_append_left hlt]

/-- Redrawing goes through the addition of a declaration. -/
theorem Labelled.redrawn_add (h : s.Labelled) (d : Declaration) :
    (s.add d).redrawn names =
      (s.redrawn names).add (d.redrawn (redraw names s.arena.toList).2).1 := by
  have hid : (s.redrawn names).nextId = s.nextId := congrArg DeclId.mk (size_redrawn names)
  have hlast : (redraw names (s.arena.push d).toList).1[s.arena.size]? =
      some (d.redrawn (redraw names s.arena.toList).2).1 := by
    rw [redraw_push]
    have hlength : (redraw names s.arena.toList).1.length = s.arena.size := by
      rw [length_redraw, Array.length_toList]
    rw [← hlength, List.getElem?_concat_length]
  have hindex : ((s.add d).redrawn names).index =
      ((d.redrawn (redraw names s.arena.toList).2).1.name, s.nextId) :: (s.redrawn names).index := by
    rw [← h.map_push names d]
    refine congrArg (· :: _) ?_
    change (((redraw names (s.arena.push d).toList).1[s.arena.size]?.map Declaration.name).getD
      d.name, s.nextId) = _
    rw [hlast, Option.map_some, Option.getD_some]
  have harena : ((s.add d).redrawn names).arena =
      (s.redrawn names).arena.push (d.redrawn (redraw names s.arena.toList).2).1 := by
    rw [redrawn, redrawn, arena_add, redraw_push]
    exact (List.push_toArray ..).symm
  have hkind := (Declaration.redrawn_eq (redraw names s.arena.toList).2 d).2.1
  calc (s.add d).redrawn names
    _ = { s.add d with
          arena := ((s.add d).redrawn names).arena
          index := ((s.add d).redrawn names).index } := rfl
    _ = (s.redrawn names).add (d.redrawn (redraw names s.arena.toList).2).1 := by
      rw [harena, hindex]
      simp only [add, hkind, register, hid]
      rfl

theorem Labelled.redrawn_addVariable (h : s.Labelled) {name : String} {sort : TermSort}
    (hname : hasForm 'x' name = true) :
    (s.addVariable name sort).2.redrawn names = ((s.redrawn names).addVariable
      (redraw names s.arena.toList).2.freshVariable.1 sort).2 := by
  have hsource : (Declaration.variable name sort).source? = some .bound := by
    rw [Declaration.source?, if_pos hname]
  have harena : ((s.addVariable name sort).2.redrawn names).arena = (s.redrawn names).arena.push
      (.variable (redraw names s.arena.toList).2.freshVariable.1 sort) := by
    rw [redrawn, redrawn, arena_addVariable, redraw_push, Declaration.redrawn_of_some hsource]
    exact (List.push_toArray ..).symm
  calc (s.addVariable name sort).2.redrawn names
    _ = { s with
          arena := ((s.addVariable name sort).2.redrawn names).arena
          index := ((s.addVariable name sort).2.redrawn names).index } := rfl
    _ = ((s.redrawn names).addVariable (redraw names s.arena.toList).2.freshVariable.1 sort).2 := by
      rw [harena, show ((s.addVariable name sort).2.redrawn names).index = _ from h.map_push names _]
      rfl

theorem Labelled.push (h : s.Labelled) (d : Declaration) : ∀ entry ∈ s.index,
    ∃ d', (s.arena.push d)[entry.2.index]? = some d' ∧ d'.name = entry.1 ∧ d'.Findable := by
  intro entry he
  obtain ⟨d', hd', hrest⟩ := h entry he
  obtain ⟨hlt, rfl⟩ := Array.getElem?_eq_some_iff.mp hd'
  exact ⟨_, Array.getElem?_push_lt hlt, hrest⟩

theorem Labelled.add (h : s.Labelled) {d : Declaration} (hd : d.Findable) : (s.add d).Labelled :=
  List.forall_mem_cons.mpr ⟨⟨d, add_getElem? s d, rfl, hd⟩, h.push d⟩

theorem Labelled.addVariable (h : s.Labelled) (name : String) (sort : TermSort) :
    (s.addVariable name sort).2.Labelled := h.push _

end Script

/-! ## Sorts -/

theorem sortsOf_congr {s t : Script} {args : List Term}
    (h : ∀ a ∈ args, s.sortOf a = t.sortOf a) : s.sortsOf args = t.sortsOf args := by
  induction args with
  | nil => simp only [Script.sortsOf]
  | cons a args ih =>
    obtain ⟨ha, hargs⟩ := List.forall_mem_cons.mp h
    simp only [Script.sortsOf, ha, ih hargs]

theorem sortOfLast_congr {s t : Script} {args : List Term}
    (h : ∀ a ∈ args, s.sortOf a = t.sortOf a) : s.sortOfLast args = t.sortOfLast args := by
  induction args with
  | nil => simp only [Script.sortOfLast]
  | cons a args ih =>
    obtain ⟨ha, hargs⟩ := List.forall_mem_cons.mp h
    simp only [Script.sortOfLast, ha, ih hargs]

section Sorts

variable {s t : Script}
  (hsort : ∀ id, (do return (← s.decl id).sort) = (do return (← t.decl id).sort))
  (hlookup : ∀ w ∈ Encoding.intSorts, s.lookup w.value = t.lookup w.value)

include hsort hlookup

/-- The sort of a term depends on the sorts of declarations and on the functions
that may be called. -/
theorem sortOf_congr {n : Nat} {a : Term} (ha : a.Over n) : s.sortOf a = t.sortOf a := by
  induction ha with
  | ref _ => simpa only [Script.sortOf] using hsort _
  | int | bool | emptySet _ | fullSet _ | quantified _ _ _ => simp only [Script.sortOf]
  | @unary op a _ ih =>
    cases op <;> simp only [Script.sortOf, ih]
  | @binary op a b _ _ iha ihb =>
    cases op with
    | select => cases a <;> simp only [Script.sortOf, ihb]
    | _ => simp only [Script.sortOf, iha, ihb]
  | @nary op args _ ih =>
    cases op <;> simp only [Script.sortOf, sortsOf_congr ih, sortOfLast_congr ih]
  | @value w a hw _ _ =>
    simp only [Encoding.IntSort.valueOf, Script.sortOf, hlookup w hw]
    cases t.lookup w.value with
    | none => rfl
    | some id => exact hsort id

end Sorts

/-! ## Runs -/

namespace Encoding

open Relational Encoder

/-- The script redrawn, and what is left of the supply. -/
def Progress.redrawn (start : NameSupply) (p : Progress) : Progress :=
  ⟨p.script.redrawn start, (redraw start p.script.arena.toList).2⟩

/-- The generated names of the script are those drawn from `start`, in order. -/
structure Orderly (start : NameSupply) (p : Progress) : Prop where
  drawn : p.redrawn start = p
  labelled : p.script.Labelled

/-- From a redrawn state the encoder does the same, and what it leaves is redrawn. -/
structure Natural {α : Type} (start start' : NameSupply) (m : Encoder α) (p : Progress) : Prop where
  orderly : Orderly start (m.run.run p).2
  run : m.run.run (p.redrawn start') = ((m.run.run p).1, (m.run.run p).2.redrawn start')

section Runs

variable {α : Type} {start start' : NameSupply} {p : Progress}

theorem Progress.redrawn_add (h : p.script.Labelled) (d : Declaration) (supply : NameSupply) :
    Progress.redrawn start ⟨p.script.add d, supply⟩ =
      ⟨(p.script.redrawn start).add (d.redrawn (p.redrawn start).names).1,
        (d.redrawn (p.redrawn start).names).2⟩ := by
  rw [Progress.redrawn, h.redrawn_add, Script.arena_add, Script.redraw_push]
  rfl

theorem Progress.redrawn_withVariable (h : p.script.Labelled) (sort : TermSort) :
    (p.withVariable sort).redrawn start = (p.redrawn start).withVariable sort := by
  have hform : hasForm 'x' p.names.freshVariable.1 = true := Source.bound.hasForm_nameAt _
  have hsource : (Declaration.variable p.names.freshVariable.1 sort).source? = some .bound := by
    rw [Declaration.source?, if_pos hform]
  rw [Progress.redrawn, Progress.withVariable, h.redrawn_addVariable start hform,
    Script.arena_addVariable, Script.redraw_push, Declaration.redrawn_of_some hsource]
  rfl

theorem Progress.sortOf_redrawn (h : p.script.Labelled) {n : Nat} {t : Term} (ht : t.Over n) :
    (p.redrawn start').script.sortOf t = p.script.sortOf t := by
  refine sortOf_congr (Script.sort_decl_redrawn start') (fun w hw => h.lookup_redrawn start' ?_) ht
  have hall : ∀ w ∈ intSorts, hasForm 'a' w.value = false ∧ hasForm 'S' w.value = false := by decide
  exact hall w hw

/-- A declaration is added under its own name, or under the next one of its counter. -/
theorem natural_add {m : Encoder DeclId} {d : Declaration} (hp : Orderly start p) (hd : d.Findable)
    (hrun : ∀ q ∈ [p, p.redrawn start'], m.run.run q = (.ok q.script.nextId,
      ⟨q.script.add (d.redrawn q.names).1, (d.redrawn q.names).2⟩)) :
    Natural start start' m p := by
  obtain ⟨hrun, hrun'⟩ := List.forall_mem_cons.mp hrun
  have hrun' := List.forall_mem_singleton.mp hrun'
  constructor
  · rw [hrun]
    refine ⟨?_, hp.labelled.add (hd.redrawn _)⟩
    have hscript : p.script.redrawn start = p.script := congrArg Progress.script hp.drawn
    rw [Progress.redrawn_add hp.labelled, hp.drawn, hscript, Declaration.redrawn_redrawn]
  · rw [hrun, hrun', Progress.redrawn_add hp.labelled, Declaration.redrawn_redrawn]
    refine Prod.ext ?_ rfl
    exact congrArg (Except.ok ∘ DeclId.mk) (Script.size_redrawn start')

/-- The next name of a counter can always be declared. -/
theorem Orderly.fresh (hp : Orderly start p) (source : Source) (hsource : source ≠ .bound) :
    ∀ q ∈ [p, p.redrawn start'], q.script.lookup (q.names.draw source).1 = none := by
  have hnext (names : NameSupply) : (p.redrawn names).script.lookup
      ((p.redrawn names).names.draw source).1 = none := by
    rw [NameSupply.draw_name]
    exact hp.labelled.lookup_fresh names hsource
  have hthis := hnext start
  rw [hp.drawn] at hthis
  exact List.forall_mem_cons.mpr ⟨hthis, List.forall_mem_singleton.mpr (hnext start')⟩

/-- A continuation is run from redrawn states in turn. -/
theorem Natural.bind {β : Type} {m : Encoder α} {f : α → Encoder β} (hm : Natural start start' m p)
    (hf : ∀ a q, m.run.run p = (.ok a, q) → Orderly start q → Natural start start' (f a) q) :
    Natural start start' (m >>= f) p := by
  obtain ⟨hq, hqrun⟩ := hm
  cases hrun : m.run.run p with
  | mk result q =>
    rw [hrun] at hq hqrun
    cases result with
    | error e =>
      constructor
      · rw [run_bind_error hrun]
        exact hq
      · rw [run_bind_error hrun, run_bind_error hqrun]
    | ok a =>
      obtain ⟨hr, hrrun⟩ := hf a q hrun hq
      constructor
      · rw [run_bind_ok hrun]
        exact hr
      · rw [run_bind_ok hrun, run_bind_ok hqrun]
        exact hrrun

section Steps

variable (hp : Orderly start p)

include hp

theorem natural_sortOf {n : Nat} {t : Term} (ht : t.Over n) :
    Natural start start' (sortOf t) p where
  orderly := by
    rw [run_sortOf]
    exact hp
  run := by rw [run_sortOf, run_sortOf, Progress.sortOf_redrawn hp.labelled ht]

/-- A name that has no generated form is taken in both states or in none. -/
theorem natural_declareRelation {name : String} (sort : TermSort)
    (hname : hasForm 'a' name = false ∧ hasForm 'S' name = false) :
    Natural start start' (declareRelation name sort) p := by
  have hlookup := hp.labelled.lookup_redrawn start' hname
  cases hfree : p.script.lookup name with
  | some id =>
    rw [hfree] at hlookup
    constructor
    · rw [run_declareRelation_taken hfree]
      exact hp
    · rw [run_declareRelation_taken hfree, run_declareRelation_taken (p := p.redrawn start') hlookup]
  | none =>
    rw [hfree] at hlookup
    have hsource : (Declaration.function name [] sort).source? = none := by
      rw [Declaration.source?, hname.2]
      rfl
    have hfindable : (Declaration.function name [] sort).Findable := by
      refine ⟨by simp [hsource], fun source hne hform => ?_⟩
      cases source with
      | bound => exact absurd rfl hne
      | element => exact absurd (hname.1.symm.trans hform) Bool.false_ne_true
      | set => exact absurd (hname.2.symm.trans hform) Bool.false_ne_true
    refine natural_add hp hfindable (List.forall_mem_cons.mpr
      ⟨?_, List.forall_mem_singleton.mpr ?_⟩)
    · rw [run_declareRelation hfree, Declaration.redrawn_of_none hsource]
    · rw [run_declareRelation (p := p.redrawn start') hlookup, Declaration.redrawn_of_none hsource]

theorem natural_freshVariable (sort : TermSort) :
    Natural start start' (freshVariable sort) p where
  orderly := by
    rw [run_freshVariable]
    refine ⟨?_, hp.labelled.addVariable _ sort⟩
    rw [Progress.redrawn_withVariable hp.labelled, hp.drawn]
  run := by
    rw [run_freshVariable, run_freshVariable, Progress.redrawn_withVariable hp.labelled]
    refine Prod.ext ?_ rfl
    exact congrArg (Except.ok ∘ DeclId.mk) (Script.size_redrawn start')

theorem natural_freshElement (sort : TermSort) : Natural start start' (freshElement sort) p := by
  have hform : hasForm 'a' (NameSupply.elementName 0) = true := Source.element.hasForm_nameAt 0
  have hsource : (Declaration.constant (NameSupply.elementName 0) sort).source? = some .element := by
    rw [Declaration.source?, if_pos hform]
  refine natural_add hp (Declaration.findable_of_source? hsource (by decide)) fun q hq => ?_
  rw [run_freshElement (hp.fresh .element (by decide) q hq), Declaration.redrawn_of_some hsource]
  rfl

theorem natural_freshSet (sort : TermSort) : Natural start start' (freshSet sort) p := by
  have hform : hasForm 'S' (NameSupply.setName 0) = true := Source.set.hasForm_nameAt 0
  have hsource : (Declaration.function (NameSupply.setName 0) [] sort).source? = some .set := by
    rw [Declaration.source?, if_pos hform]
  refine natural_add hp (Declaration.findable_of_source? hsource (by decide)) fun q hq => ?_
  rw [run_freshSet (hp.fresh .set (by decide) q hq), Declaration.redrawn_of_some hsource]
  rfl

theorem natural_assertTerm (label : Option String) (t : Term) :
    Natural start start' (assertTerm label t) p where
  orderly := ⟨congrArg (fun q : Progress => (⟨q.script.addAssertion label t, q.names⟩ : Progress))
    hp.drawn, hp.labelled⟩
  run := rfl

variable (start') in
/-- Steps do not depend on where the counters stand. -/
theorem Stepwise.natural {given : List String} {free : String → Prop} {n : Nat}
    {post : Nat → α → Prop} {m : Encoder α} (h : Stepwise given free n m post)
    (hgiven : ∀ name ∈ given, hasForm 'a' name = false ∧ hasForm 'S' name = false)
    (hintact : p.script.Intact) (hn : n ≤ p.script.arena.size) : Natural start start' m p := by
  induction h generalizing p with
  | pure _ => exact ⟨hp, rfl⟩
  | bind hm _ ihm ihf =>
    refine (ihm hp hintact hn).bind fun a q hrun hq => ?_
    have hstays := hm.stays hintact hn
    rw [hrun] at hstays
    obtain ⟨k, hk, hkq, ha⟩ := hstays.result a rfl
    exact ihf k a hk ha hq hstays.intact hkq
  | weaken _ _ ih => exact ih hp hintact hn
  | unsupported => exact ⟨hp, rfl⟩
  | unbound _ => exact ⟨hp, rfl⟩
  | malformed => exact ⟨hp, rfl⟩
  | sortOf ht => exact natural_sortOf hp ht
  | declareRelation hname _ => exact natural_declareRelation hp _ (hgiven _ hname)
  | freshVariable _ => exact natural_freshVariable hp _
  | freshElement _ => exact natural_freshElement hp _
  | freshSet _ => exact natural_freshSet hp _
  | assertTerm _ => exact natural_assertTerm hp _ _

end Steps

end Runs

/-! ## Models -/

/-- The script has a number of declarations from each counter, named in order from
where the counter stood. -/
structure Numbered (start : NameSupply) (p : Progress) (drawn : Source → Nat) : Prop where
  names : ∀ source, (drawnFrom p.script.arena.toList source).map Declaration.name =
    (List.range (drawn source)).map fun i => source.nameAt (start.count source + i + 1)
  counts : ∀ source, p.names.count source = start.count source + drawn source

theorem numbered_redrawn (start : NameSupply) (p : Progress) :
    Numbered start (p.redrawn start) fun source => (drawnFrom p.script.arena.toList source).length where
  names source := drawnFrom_redraw start p.script.arena.toList source
  counts source := count_redraw start p.script.arena.toList source

/-- The first declarations are not generated. -/
theorem redrawn_builtins (start names : NameSupply) :
    Progress.redrawn start ⟨builtinScript, names⟩ = ⟨builtinScript, start⟩ := by
  have hnone : ∀ d ∈ builtinScript.arena.toList, d.source? = none := by decide
  have hredraw := redraw_of_none start hnone
  rw [Progress.redrawn, Script.redrawn, hredraw]
  rfl

theorem labelled_builtinScript : builtinScript.Labelled := by
  have hentry : ∀ entry ∈ builtinScript.index,
      (builtinScript.arena[entry.2.index]?.map Declaration.name) = some entry.1 := by decide
  have hnone : ∀ d ∈ builtinScript.arena, d.source? = none := by decide
  have hform : ∀ d ∈ builtinScript.arena, ∀ source ∈ [Source.bound, .element, .set],
      hasForm source.mark d.name = false := by decide
  intro entry hmem
  obtain ⟨d, hd, hname⟩ := Option.map_eq_some_iff.mp (hentry entry hmem)
  have harena := Array.mem_of_getElem? hd
  refine ⟨d, hd, hname, by simp [hnone d harena], fun source _ hsource => ?_⟩
  rw [hform d harena source (by cases source <;> decide)] at hsource
  cases hsource

/-- Encoding does not depend on the counters. From two supplies it fails alike or
gives scripts that differ in generated names only, and takes as many names from
each counter, numbered from where that counter stands. -/
theorem encode_redrawn (m : Model) (settings : Settings) (names names' : NameSupply)
    (hreset : settings.resetNames = false)
    (hgiven : ∀ name ∈ m.relationNames, hasForm 'a' name = false ∧ hasForm 'S' name = false) :
    ∃ result p drawn,
      (encodeModel settings.fieldTyping m).run.run ⟨.empty, names⟩ = (result, p) ∧
      m.encode settings names = (result.map fun _ => p.script, p.names) ∧
      m.encode settings names' =
        (result.map fun _ => p.script.redrawn names', (p.redrawn names').names) ∧
      Numbered names p drawn ∧ Numbered names' (p.redrawn names') drawn := by
  have horderly : Orderly names ⟨builtinScript, names⟩ :=
    ⟨redrawn_builtins names names, labelled_builtinScript⟩
  obtain ⟨hend, hrun'⟩ := Stepwise.natural names' horderly
    (stepwise_afterBuiltins settings.fieldTyping (m := m)) hgiven intact_builtinScript (Nat.le_refl 8)
  rw [redrawn_builtins, ← run_encodeModel, ← run_encodeModel] at hrun'
  rw [← run_encodeModel] at hend
  cases hrun : (encodeModel settings.fieldTyping m).run.run ⟨.empty, names⟩ with
  | mk result p =>
    rw [hrun] at hend hrun'
    refine ⟨result, p, _, rfl, ?_, ?_, ?_, numbered_redrawn names' p⟩
    · simp only [Model.encode, hreset, Bool.false_eq_true, if_false, hrun]
    · simp only [Model.encode, hreset, Bool.false_eq_true, if_false, hrun']
      rfl
    · have hnumbered := numbered_redrawn names p
      rwa [hend.drawn] at hnumbered

/-- At least two atoms, and one that is in the signature. -/
def populatedModel : Model where
  signatures := [⟨"A", .top, [], []⟩]
  facts := [⟨"pair", .binary .and (.binary .ge (.unary .card (.sig ⟨0⟩)) (.int 2))
    (.quantified .some [⟨["x"], .sig ⟨0⟩⟩] (.binary .inside (.var "x") (.sig ⟨0⟩)))⟩]

/-- All three counters are drawn from. -/
theorem encode_redrawn_populated :
    (populatedModel.encode { resetNames := false } {}).1.isOk = true ∧
    ∃ result p drawn,
      (encodeModel true populatedModel).run.run ⟨.empty, {}⟩ = (result, p) ∧
      populatedModel.encode { resetNames := false } {} = (result.map fun _ => p.script, p.names) ∧
      populatedModel.encode { resetNames := false } ⟨7, 0, 12⟩ =
        (result.map fun _ => p.script.redrawn ⟨7, 0, 12⟩, (p.redrawn ⟨7, 0, 12⟩).names) ∧
      Numbered {} p drawn ∧ Numbered ⟨7, 0, 12⟩ (p.redrawn ⟨7, 0, 12⟩) drawn := by
  have hgiven : ∀ name ∈ populatedModel.relationNames,
      hasForm 'a' name = false ∧ hasForm 'S' name = false := by decide
  exact ⟨by decide +kernel,
    encode_redrawn populatedModel { resetNames := false } {} ⟨7, 0, 12⟩ rfl hgiven⟩

end Encoding

end TupleLogic
