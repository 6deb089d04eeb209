import TupleLogic.Proofs.EncoderState
import TupleLogic.Proofs.FormulaEncoding
import TupleLogic.Proofs.TypedRelations

/-! Typed formulas can be encoded. A run is said to yield what it returns: the
names that it draws were free, what it asserts has the strict sort of a formula,
and so has its result next to what it owes. Runs are put together bind by bind,
and a formula without cardinalities draws nothing but variables. -/

namespace TupleLogic

/-- The expression that a cardinality, cast or not, counts. -/
def Relational.Expr.cardinal? : Relational.Expr → Option Relational.Expr
  | .unary op e => match op with
    | .toInt | .toSigned => e.cardinal?
    | .card => some e
    | _ => none
  | _ => none

namespace Encoding

open Relational Encoder
open NameSupply (elementName setName elementName_injective setName_injective
  elementName_ne_setName)

/-! ## Runs that return -/

/-- From `p` to `q` the names of so many constants and sets were drawn, and
formulas of the right sort were asserted. -/
structure Advances (p q : Progress) (elements sets : Nat) : Prop where
  extension : p.script.Extends q.script
  elementCount : q.names.elementCount = p.names.elementCount + elements
  setCount : q.names.setCount = p.names.setCount + sets
  asserted : ∃ new, q.script.assertions = p.script.assertions ++ new ∧
    ∀ a ∈ new, a.formula.HasSort q.script .bool
  names : ∀ {name : String}, p.script.lookup name = none →
    (∀ k ≤ q.names.elementCount, name ≠ elementName k) →
    (∀ k ≤ q.names.setCount, name ≠ setName k) → q.script.lookup name = none

/-- The names of the next constants and sets are free. -/
structure Room (p : Progress) (elements sets : Nat) : Prop where
  element : ∀ k, p.names.elementCount < k → k ≤ p.names.elementCount + elements →
    p.script.lookup (elementName k) = none
  set : ∀ k, p.names.setCount < k → k ≤ p.names.setCount + sets →
    p.script.lookup (setName k) = none

section Advances

variable {p q r : Progress} {elements sets elements' sets' : Nat}

theorem Advances.refl (p : Progress) : Advances p p 0 0 :=
  ⟨.refl _, rfl, rfl, ⟨[], by simp, nofun⟩, fun h _ _ => h⟩

theorem Advances.trans (h : Advances p q elements sets) (h' : Advances q r elements' sets') :
    Advances p r (elements + elements') (sets + sets') where
  extension := h.extension.trans h'.extension
  elementCount := by rw [h'.elementCount, h.elementCount, Nat.add_assoc]
  setCount := by rw [h'.setCount, h.setCount, Nat.add_assoc]
  asserted := by
    obtain ⟨new, hq, hnew⟩ := h.asserted
    obtain ⟨new', hr, hnew'⟩ := h'.asserted
    refine ⟨new ++ new', by rw [hr, hq, List.append_assoc], fun a ha => ?_⟩
    rcases List.mem_append.mp ha with ha | ha
    · exact (hnew a ha).extend h'.extension
    · exact hnew' a ha
  names hname helement hset := by
    have hle := h'.elementCount
    have hle' := h'.setCount
    exact h'.names (h.names hname (fun k hk => helement k (by omega)) fun k hk => hset k (by omega))
      helement hset

theorem advances_withVariable (p : Progress) (sort : TermSort) :
    Advances p (p.withVariable sort) 0 0 :=
  ⟨(p.withVariable_grows sort).extension, rfl, rfl, ⟨[], by rw [List.append_nil]; rfl, nofun⟩,
    fun h _ _ => h⟩

theorem room_zero (p : Progress) : Room p 0 0 :=
  ⟨fun k _ _ => by omega, fun k _ _ => by omega⟩

theorem Room.before (h : Room p (elements + elements') (sets + sets')) : Room p elements sets :=
  ⟨fun k hlo hhi => h.element k hlo (by omega), fun k hlo hhi => h.set k hlo (by omega)⟩

/-- What a run does not draw is left. -/
theorem Room.after (h : Room p (elements + elements') (sets + sets'))
    (hpq : Advances p q elements sets) : Room q elements' sets' := by
  have helements := hpq.elementCount
  have hsets := hpq.setCount
  refine ⟨fun k hlo hhi => hpq.names (h.element k (by omega) (by omega)) (fun j hj he => ?_)
      fun j _ => elementName_ne_setName k j,
    fun k hlo hhi => hpq.names (h.set k (by omega) (by omega))
      (fun j _ => (elementName_ne_setName j k).symm) fun j hj he => ?_⟩
  · have := elementName_injective he
    omega
  · have := setName_injective he
    omega

end Advances

/-- The run returns what satisfies `post`; `costs` are the sizes of the
enumerations that it makes. -/
def YieldsFrom {α : Type} (p : Progress) (costs : List Nat) (m : Encoder α)
    (post : Script → α → Prop) : Prop :=
  ∃ a q, Returns m p a q ∧ Advances p q costs.sum costs.length ∧ post q.script a

/-- The run returns wherever the vocabulary is declared, the scope is in order
and there are names enough. -/
def Yields {α : Type} (v : Vocabulary) (scope : Scope) (costs : List Nat) (m : Encoder α)
    (post : Script → α → Prop) : Prop :=
  ∀ ⦃p⦄, Declared v p.script → BindsAtoms p.script scope → Room p costs.sum costs.length →
    YieldsFrom p costs m post

section Runs

variable {α β : Type} {v : Vocabulary} {scope : Scope} {p : Progress} {costs costs' : List Nat}
  {post : Script → α → Prop} {post' : Script → β → Prop}

theorem yieldsFrom_pure {a : α} (h : post p.script a) : YieldsFrom p [] (pure a) post :=
  ⟨a, p, returns_pure.mpr ⟨rfl, rfl⟩, .refl p, h⟩

theorem YieldsFrom.bind {m : Encoder α} {f : α → Encoder β} (hm : YieldsFrom p costs m post)
    (hf : ∀ a q, Advances p q costs.sum costs.length → post q.script a →
      YieldsFrom q costs' (f a) post') : YieldsFrom p (costs ++ costs') (m >>= f) post' := by
  obtain ⟨a, q, ha, hpq, hpost⟩ := hm
  obtain ⟨b, r, hb, hqr, hpost'⟩ := hf a q hpq hpost
  refine ⟨b, r, returns_bind.mpr ⟨a, q, ha, hb⟩, ?_, hpost'⟩
  rw [List.sum_append, List.length_append]
  exact hpq.trans hqr

/-- A first step that leaves the progress as it is. -/
theorem YieldsFrom.step {m : Encoder α} {f : α → Encoder β} {a : α} (hm : Returns m p a p)
    (hf : YieldsFrom p costs (f a) post') : YieldsFrom p costs (m >>= f) post' := by
  obtain ⟨b, q, hb, hpq, hpost⟩ := hf
  exact ⟨b, q, returns_bind.mpr ⟨a, p, hm, hb⟩, hpq, hpost⟩

theorem YieldsFrom.liftTerm {r : Except TermError α} {f : α → Encoder β} {a : α} (hr : r = .ok a)
    (hf : YieldsFrom p costs (f a) post') : YieldsFrom p costs (liftTerm r >>= f) post' :=
  .step (returns_liftTerm.mpr ⟨hr, rfl⟩) hf

theorem YieldsFrom.sortOf {t : Term} {sort : TermSort} {f : TermSort → Encoder β}
    (ht : t.HasSort p.script sort) (hf : YieldsFrom p costs (f sort) post') :
    YieldsFrom p costs (sortOf t >>= f) post' :=
  .step (returns_sortOf.mpr ⟨ht.sortOf, rfl⟩) hf

theorem yieldsFrom_freshVariable (sort : TermSort) : YieldsFrom p [] (freshVariable sort)
    fun s x => ∃ name, s.arena[x.index]? = some (.variable name sort) :=
  ⟨_, _, returns_freshVariable.mpr ⟨rfl, rfl⟩, advances_withVariable p sort, _,
    p.script.addVariable_getElem? p.names.freshVariable.1 sort⟩

/-- One run after the other, for each of the things to be done. -/
theorem yields_mapM {γ : Type} {g : γ → α} {f : α → Encoder β} {xs : List γ} {cost : γ → List Nat}
    (hmono : ∀ {s t : Script} {b : β}, s.Extends t → post' s b → post' t b)
    (h : ∀ x ∈ xs, Yields v scope (cost x) (f (g x)) post') :
    Yields v scope (xs.flatMap cost) ((xs.map g).mapM f) fun s bs => ∀ b ∈ bs, post' s b := by
  induction xs with
  | nil =>
    intro p _ _ _
    exact ⟨[], p, returns_mapM_nil.mpr ⟨rfl, rfl⟩, .refl p, nofun⟩
  | cons x xs ih =>
    rw [List.forall_mem_cons] at h
    intro p hv hs hroom
    rw [List.flatMap_cons, List.sum_append, List.length_append] at hroom
    obtain ⟨b, q, hb, hpq, hpost⟩ := h.1 hv hs hroom.before
    obtain ⟨bs, r, hbs, hqr, hposts⟩ := ih h.2 (hv.extend hpq.extension) (hs.extend hpq.extension)
      (hroom.after hpq)
    refine ⟨b :: bs, r, returns_mapM_cons.mpr ⟨b, q, bs, hb, hbs, rfl⟩, ?_,
      List.forall_mem_cons.mpr ⟨hmono hqr.extension hpost, hposts⟩⟩
    rw [List.flatMap_cons, List.sum_append, List.length_append]
    exact hpq.trans hqr

end Runs

/-! ## Encoded expressions -/

section Encodings

variable {s t : Script} {sort : TermSort} {e : Encoded}

/-- The term has the sort, and what is owed can be quantified. -/
structure Encoded.HasSort (s : Script) (e : Encoded) (sort : TermSort) : Prop where
  term : e.term.HasSort s sort
  witnesses : ∀ w ∈ e.witnesses, w.vars ≠ [] ∧
    (∀ x ∈ w.vars, ∃ name sort, s.arena[x.index]? = some (.variable name sort)) ∧
    w.guard.HasSort s .bool

theorem Encoded.HasSort.extend (h : e.HasSort s sort) (hst : s.Extends t) : e.HasSort t sort := by
  refine ⟨h.term.extend hst, fun w hw => ?_⟩
  obtain ⟨hne, hvars, hguard⟩ := h.witnesses w hw
  refine ⟨hne, fun x hx => ?_, hguard.extend hst⟩
  obtain ⟨name, sort, hd⟩ := hvars x hx
  exact ⟨name, sort, hst.decl hd⟩

theorem hasSort_encoded {t : Term} (h : t.HasSort s sort) : (Encoded.mk t []).HasSort s sort :=
  ⟨h, nofun⟩

theorem hasSort_conjNontrivial {ts : List Term} (h : ∀ t ∈ ts, t.HasSort s .bool) :
    (conjNontrivial ts).HasSort s .bool :=
  Term.hasSort_conj fun t ht => h t (List.mem_of_mem_filter ht)

theorem quantify_hasSort {q : Quantifier} {vars : List DeclId} {body : Term} (hne : vars ≠ [])
    (hvars : ∀ x ∈ vars, ∃ name sort, s.arena[x.index]? = some (.variable name sort))
    (hbody : body.HasSort s .bool) :
    Term.quantify q vars body = .ok (.quantified q vars body) ∧
      (Term.quantified q vars body).HasSort s .bool := by
  refine ⟨?_, .quantified hne hvars hbody⟩
  rw [Term.quantify, List.isEmpty_eq_false_iff.mpr hne]
  rfl

theorem Encoded.HasSort.close (h : e.HasSort s .bool) :
    ∃ t, e.close = .ok t ∧ t.HasSort s .bool := by
  unfold Encoded.close
  split
  · exact ⟨_, rfl, h.term⟩
  · rename_i hsome
    rw [List.isEmpty_iff] at hsome
    obtain ⟨w, hw⟩ := List.exists_mem_of_ne_nil _ hsome
    have hne : e.witnesses.flatMap Witness.vars ≠ [] := by
      intro hnil
      exact (h.witnesses w hw).1 (List.flatMap_eq_nil_iff.mp hnil w hw)
    refine ⟨_, quantify_hasSort hne (fun x hx => ?_) (hasSort_conjNontrivial fun t ht => ?_)⟩
    · obtain ⟨w, hw, hx⟩ := List.mem_flatMap.mp hx
      exact (h.witnesses w hw).2.1 x hx
    · rcases List.mem_append.mp ht with ht | ht
      · obtain ⟨w, hw, rfl⟩ := List.mem_map.mp ht
        exact (h.witnesses w hw).2.2
      · rw [List.mem_singleton.mp ht]
        exact h.term

end Encodings

/-- The run returns an expression of that sort. -/
def YieldsEncoded (v : Vocabulary) (scope : Scope) (costs : List Nat) (m : Encoder Encoded)
    (sort : TermSort) : Prop :=
  Yields v scope costs m fun s e => e.HasSort s sort

section Constructs

variable {v : Vocabulary} {scope : Scope} {p : Progress} {costs costs' : List Nat}
  {encoding lhs rhs : Encoder Encoded} {cs : List ColumnType}

theorem yields_formula (h : YieldsEncoded v scope costs encoding .bool) :
    Yields v scope costs (formula encoding) fun s t => t.HasSort s .bool := by
  intro p hv hs hroom
  obtain ⟨e, q, he, hpq, hsort⟩ := h hv hs hroom
  obtain ⟨t, ht, hterm⟩ := hsort.close
  exact ⟨t, q, returns_formula.mpr ⟨e, he, ht⟩, hpq, hterm⟩

theorem yields_both {sort sort' result : TermSort} {build : Term → Term → Term}
    (hl : YieldsEncoded v scope costs lhs sort) (hr : YieldsEncoded v scope costs' rhs sort')
    (hbuild : ∀ {s : Script} {a b : Term}, a.HasSort s sort → b.HasSort s sort' →
      (build a b).HasSort s result) :
    YieldsEncoded v scope (costs ++ costs') (both lhs rhs build) result := by
  intro p hv hs hroom
  rw [List.sum_append, List.length_append] at hroom
  refine YieldsFrom.bind (hl hv hs hroom.before) fun a q hpq ha => ?_
  obtain ⟨b, r, hb, hqr, hsort⟩ := hr (hv.extend hpq.extension) (hs.extend hpq.extension)
    (hroom.after hpq)
  have ha := ha.extend hqr.extension
  refine ⟨_, r, returns_bind.mpr ⟨b, r, hb, returns_pure.mpr ⟨rfl, rfl⟩⟩, hqr,
    hbuild ha.term hsort.term, fun w hw => ?_⟩
  rcases List.mem_append.mp hw with hw | hw
  · exact ha.witnesses w hw
  · exact hsort.witnesses w hw

theorem YieldsRelation.encoded (h : YieldsRelation v scope encoding cs) :
    YieldsEncoded v scope [] (Encoding.relation encoding) (relationSort cs) := by
  intro p hv hs _
  obtain ⟨t, ht, hsort⟩ := h.relation hv hs
  exact ⟨_, p, ht, .refl p, hasSort_encoded hsort⟩

theorem yields_setOperation {build : Term → Term → Term} (hl : YieldsRelation v scope lhs cs)
    (hr : YieldsRelation v scope rhs cs)
    (hbuild : ∀ {s : Script} {a b : Term}, a.HasSort s (relationSort cs) →
      b.HasSort s (relationSort cs) → (build a b).HasSort s .bool) :
    YieldsEncoded v scope [] (setOperation lhs rhs build) .bool :=
  yields_both hl.encoded hr.encoded hbuild

theorem yields_negation (h : YieldsEncoded v scope [] encoding .bool) :
    YieldsEncoded v scope [] (do return ⟨.not (← formula encoding), []⟩) .bool := by
  intro p hv hs hroom
  refine (yields_formula h hv hs hroom).bind fun t q _ ht => ?_
  exact yieldsFrom_pure (hasSort_encoded (.not ht))

theorem yields_connective {build : Term → Term → Term}
    (hl : YieldsEncoded v scope [] lhs .bool) (hr : YieldsEncoded v scope [] rhs .bool)
    (hbuild : ∀ {s : Script} {a b : Term}, a.HasSort s .bool → b.HasSort s .bool →
      (build a b).HasSort s .bool) :
    YieldsEncoded v scope [] (connective lhs rhs build) .bool := by
  intro p hv hs hroom
  refine (yields_formula hl hv hs hroom).bind fun a q hpq ha => ?_
  refine (yields_formula hr (hv.extend hpq.extension) (hs.extend hpq.extension)
    (room_zero q)).bind fun b r hqr hb => ?_
  exact yieldsFrom_pure (hasSort_encoded (hbuild (ha.extend hqr.extension) hb))

theorem yields_conjunction {α : Type} {g : α → Encoder Encoded} {xs : List α} {cost : α → List Nat}
    (h : ∀ x ∈ xs, YieldsEncoded v scope (cost x) (g x) .bool) :
    YieldsEncoded v scope (xs.flatMap cost) (conjunction (xs.map g)) .bool := by
  intro p hv hs hroom
  have hall : Yields v scope (xs.flatMap cost) ((xs.map g).mapM id) fun s es =>
      ∀ e ∈ es, Encoded.HasSort s e .bool := yields_mapM (fun hst he => he.extend hst) h
  rw [← List.append_nil (xs.flatMap cost)]
  refine (hall hv hs hroom).bind fun es q _ hes => ?_
  have hwhole : (Encoded.mk (conjNontrivial (es.map Encoded.term))
      (es.flatMap Encoded.witnesses)).HasSort q.script .bool := by
    refine ⟨hasSort_conjNontrivial fun t ht => ?_, fun w hw => ?_⟩
    · obtain ⟨e, he, rfl⟩ := List.mem_map.mp ht
      exact (hes e he).term
    · obtain ⟨e, he, hw⟩ := List.mem_flatMap.mp hw
      exact (hes e he).witnesses w hw
  obtain ⟨t, ht, hsort⟩ := hwhole.close
  exact .liftTerm ht (yieldsFrom_pure (hasSort_encoded hsort))

theorem yields_disjunction {α : Type} {g : α → Encoder Encoded} {xs : List α}
    (h : ∀ x ∈ xs, YieldsEncoded v scope [] (g x) .bool) :
    YieldsEncoded v scope [] (disjunction (xs.map g)) .bool := by
  intro p hv hs hroom
  have hall : Yields v scope (xs.flatMap fun _ => []) ((xs.map g).mapM formula) fun s ts =>
      ∀ t ∈ ts, Term.HasSort s t .bool :=
    yields_mapM (fun hst ht => ht.extend hst) fun x hx => yields_formula (h x hx)
  have hnone : xs.flatMap (fun _ => ([] : List Nat)) = [] :=
    List.flatMap_eq_nil_iff.mpr fun _ _ => rfl
  rw [hnone] at hall
  refine (hall hv hs hroom).bind fun ts q _ hts => ?_
  exact yieldsFrom_pure (hasSort_encoded (Term.hasSort_disj hts))

end Constructs

/-! ## Specimens -/

section Specimens

variable {v : Vocabulary} {scope : Scope} {p : Progress} {encoding : Encoder Encoded}
  {cs : List ColumnType} {expr : String}

/-- The tuple that an element of an integer sort stands for. -/
theorem hasSort_valueOf {s : Script} {t : Term} {w : IntSort} (hv : Declared v s)
    (hw : w ∈ intSorts) (ht : t.HasSort s (.named w.sort)) :
    (w.valueOf t).HasSort s (.tuple (List.replicate w.width .int)) := by
  obtain ⟨d, hd⟩ := hv.values w hw
  refine Term.HasSort.call hd.1 hd.2 rfl (by simp) rfl fun x hx => ?_
  rw [List.mem_singleton.mp hx]
  exact ht

theorem hasSort_unaryIntValue {s : Script} {x : DeclId} {name : String} (hv : Declared v s)
    (hx : s.arena[x.index]? = some (.variable name unaryIntSort)) :
    (unaryIntValue (.ref x)).HasSort s (.tuple [.int]) :=
  hasSort_valueOf hv (w := unaryInts) (by simp [intSorts]) (hasSort_variable hx)

theorem yieldsFrom_specimenColumn (hv : Declared v p.script) (c : ColumnType) :
    YieldsFrom p [] (specimenColumn expr c.sort) fun s x =>
      (∃ name sort, s.arena[x.1.index]? = some (.variable name sort)) ∧ x.2.HasSort s c.sort := by
  cases c with
  | atom =>
    refine (yieldsFrom_freshVariable .atom).bind fun x q _ hx => ?_
    obtain ⟨name, hx⟩ := hx
    exact yieldsFrom_pure ⟨⟨name, _, hx⟩, hasSort_variable hx⟩
  | int =>
    refine (yieldsFrom_freshVariable unaryIntSort).bind fun x q hpq hx => ?_
    obtain ⟨name, hx⟩ := hx
    refine yieldsFrom_pure ⟨⟨name, _, hx⟩, ?_⟩
    exact .select (hasSort_unaryIntValue (hv.extend hpq.extension) hx) rfl

/-- What a sample of a relation with the columns `cs` is. -/
structure Specimen.Fits (s : Script) (cs : List ColumnType) (x : Specimen) : Prop where
  vars : ∀ y ∈ x.vars, ∃ name sort, s.arena[y.index]? = some (.variable name sort)
  length : x.vars.length = cs.length
  tuple : x.tuple.HasSort s (.tuple (cs.map ColumnType.sort))
  allInt : x.allInt = cs.all (· = .int)

theorem Specimen.Fits.extend {s t : Script} {x : Specimen} (h : x.Fits s cs) (hst : s.Extends t) :
    x.Fits t cs := by
  refine ⟨fun y hy => ?_, h.length, h.tuple.extend hst, h.allInt⟩
  obtain ⟨name, sort, hd⟩ := h.vars y hy
  exact ⟨name, sort, hst.decl hd⟩

theorem Specimen.Fits.vars_ne_nil {s : Script} {x : Specimen} (h : x.Fits s cs) (hcs : cs ≠ []) :
    x.vars ≠ [] := by
  rw [← List.length_pos_iff, h.length]
  exact List.length_pos_iff.mpr hcs

/-- A variable and a term for each column. -/
theorem yieldsFrom_columns (hv : Declared v p.script) (cs : List ColumnType) :
    YieldsFrom p [] ((cs.map ColumnType.sort).mapM (specimenColumn expr)) fun s xs =>
      (∀ x ∈ xs, ∃ name sort, s.arena[x.1.index]? = some (.variable name sort)) ∧
        List.Forall₂ (Term.HasSort s) (xs.map Prod.snd) (cs.map ColumnType.sort) := by
  induction cs generalizing p with
  | nil => exact ⟨[], p, returns_mapM_nil.mpr ⟨rfl, rfl⟩, .refl p, nofun, .nil⟩
  | cons c cs ih =>
    obtain ⟨x, q, hx, hpq, ⟨name, sort, hvar⟩, hterm⟩ := yieldsFrom_specimenColumn hv c
    obtain ⟨xs, r, hxs, hqr, hvars, hterms⟩ := ih (hv.extend hpq.extension)
    refine ⟨x :: xs, r, returns_mapM_cons.mpr ⟨x, q, xs, hx, hxs, rfl⟩, hpq.trans hqr,
      List.forall_mem_cons.mpr ⟨⟨name, sort, hqr.extension.decl hvar⟩, hvars⟩,
      .cons (hterm.extend hqr.extension) hterms⟩

theorem yieldsFrom_specimen (hv : Declared v p.script) (hcs : cs ≠ []) :
    YieldsFrom p [] (specimen expr (relationSort cs)) fun s x => x.Fits s cs := by
  refine (yieldsFrom_columns hv cs).bind fun xs q _ ⟨hvars, hterms⟩ => ?_
  have hlength := hterms.length_eq
  rw [List.length_map, List.length_map] at hlength
  have hne : xs.map Prod.snd ≠ [] := by
    rw [← List.length_pos_iff, List.length_map, hlength]
    exact List.length_pos_iff.mpr hcs
  have htuple : Term.mkTuple (xs.map Prod.snd) = .ok (.nary .tuple (xs.map Prod.snd)) := by
    rw [Term.mkTuple, List.isEmpty_eq_false_iff.mpr hne]
    rfl
  refine .liftTerm htuple (yieldsFrom_pure ⟨fun y hy => ?_, ?_, ?_, ?_⟩)
  · obtain ⟨x, hx, rfl⟩ := List.mem_map.mp hy
    exact hvars x hx
  · rw [List.length_map, hlength]
  · exact Term.hasSort_tuple (by simpa using hcs) hterms
  · have hint : ∀ c : ColumnType, decide (c.sort = .int) = decide (c = .int) := by
      intro c
      cases c <;> rfl
    simp only [List.all_map, Function.comp_def, hint]

/-- A witness next to which nothing is said. -/
theorem hasSort_witness {s : Script} {vars : List DeclId} {guard : Term} (hne : vars ≠ [])
    (hvars : ∀ x ∈ vars, ∃ name sort, s.arena[x.index]? = some (.variable name sort))
    (hguard : guard.HasSort s .bool) :
    (Encoded.mk (.bool true) [⟨vars, guard⟩]).HasSort s .bool :=
  ⟨.bool, List.forall_mem_singleton.mpr ⟨hne, hvars, hguard⟩⟩

/-- The witness has an element that stands for the whole sample. -/
theorem yieldsFrom_companion {sample : Specimen} {claim : Term} {w : IntSort} (hw : w ∈ intSorts)
    (hv : Declared v p.script) (hsample : sample.Fits p.script cs)
    (hclaim : claim.HasSort p.script .bool) (hall : sample.allInt = true)
    (hlength : sample.vars.length = w.width) :
    YieldsFrom p [] (do
      let y ← freshVariable (.named w.sort)
      let e ← pure (Witness.mk (sample.vars ++ [y])
        (.and claim (.equals (w.valueOf (.ref y)) sample.tuple)))
      pure (Encoded.mk (.bool true) [e])) fun s e => Encoded.HasSort s e .bool := by
  have hint : cs.map ColumnType.sort = List.replicate w.width .int := by
    have hcs : cs = List.replicate w.width .int :=
      eq_replicate_of_all (hsample.allInt ▸ hall) (hsample.length ▸ hlength)
    rw [hcs, List.map_replicate]
    rfl
  refine (yieldsFrom_freshVariable (.named w.sort)).bind fun y q hpq ⟨name, hy⟩ => ?_
  have hsample := hsample.extend hpq.extension
  rw [pure_bind]
  refine yieldsFrom_pure (hasSort_witness (by simp) (fun x hx => ?_)
    (Term.hasSort_and (hclaim.extend hpq.extension) ?_))
  · rcases List.mem_append.mp hx with hx | hx
    · exact hsample.vars x hx
    · rw [List.mem_singleton.mp hx]
      exact ⟨name, _, hy⟩
  · have hvalue := hasSort_valueOf (hv.extend hpq.extension) hw (hasSort_variable hy)
    rw [← hint] at hvalue
    exact .eq hvalue hsample.tuple

/-- A sample of the relation bears witness. -/
theorem yields_witnessed {guard : Term → Term → Term} (h : YieldsRelation v scope encoding cs)
    (hcs : cs ≠ [])
    (hguard : ∀ {s : Script} {tuple set : Term},
      tuple.HasSort s (.tuple (cs.map ColumnType.sort)) → set.HasSort s (relationSort cs) →
      (guard tuple set).HasSort s .bool) :
    YieldsEncoded v scope [] (witnessed expr guard encoding) .bool := by
  intro p hv hs _
  obtain ⟨set, hset, hsort⟩ := h.relation hv hs
  refine .step hset (.sortOf hsort ?_)
  refine (yieldsFrom_specimen hv hcs).bind fun sample q hpq hsample => ?_
  have hclaim := hguard hsample.tuple (hsort.extend hpq.extension)
  have hv := hv.extend hpq.extension
  dsimp only
  split
  · rename_i hpair
    rw [Bool.and_eq_true, beq_iff_eq] at hpair
    exact yieldsFrom_companion (w := binaryInts) (by simp [intSorts]) hv hsample hclaim
      hpair.1 hpair.2
  · split
    · rename_i htriple
      rw [Bool.and_eq_true, beq_iff_eq] at htriple
      exact yieldsFrom_companion (w := ternaryInts) (by simp [intSorts]) hv hsample hclaim
        htriple.1 htriple.2
    · rw [pure_bind]
      exact yieldsFrom_pure (hasSort_witness (hsample.vars_ne_nil hcs) hsample.vars hclaim)

theorem yields_emptiness (h : YieldsRelation v scope encoding cs) (hcs : cs ≠ []) :
    YieldsEncoded v scope [] (emptiness expr encoding) .bool := by
  intro p hv hs _
  obtain ⟨set, hset, hsort⟩ := h.relation hv hs
  refine .step hset (.sortOf hsort ?_)
  rw [if_pos List.isEmpty_nil]
  refine (yieldsFrom_specimen hv hcs).bind fun sample q hpq hsample => ?_
  obtain ⟨hquantify, hall⟩ := quantify_hasSort (q := .all) (hsample.vars_ne_nil hcs) hsample.vars
    (.not (.member hsample.tuple (hsort.extend hpq.extension)))
  exact .liftTerm hquantify (yieldsFrom_pure (hasSort_encoded hall))

/-- The value of a number. -/
theorem yields_intValue {e : Expr} (h : YieldsRelation v scope encoding [.int]) :
    YieldsEncoded v scope [] (intValue v e encoding) .int := by
  intro p hv hs _
  unfold intValue
  split
  · exact yieldsFrom_pure (hasSort_encoded .int)
  · obtain ⟨set, hset, hsort⟩ := h.relation hv hs
    refine .step hset (.sortOf hsort ?_)
    have hint : relationSort [.int] = .set (.tuple [.int]) := rfl
    rw [if_pos hint]
    refine (yieldsFrom_freshVariable unaryIntSort).bind fun x q hpq ⟨name, hx⟩ => ?_
    have hvalue := hasSort_unaryIntValue (hv.extend hpq.extension) hx
    refine yieldsFrom_pure ⟨.select hvalue rfl, List.forall_mem_singleton.mpr ⟨by simp, ?_, ?_⟩⟩
    · exact List.forall_mem_singleton.mpr ⟨name, _, hx⟩
    · exact .eq (.singleton hvalue rfl) (hsort.extend hpq.extension)

end Specimens

/-! ## Quantifiers -/

section Quantifiers

variable {v : Vocabulary} {scope : Scope} {p : Progress}

/-- The variables range over atoms, and the scope has the names. -/
structure Bound.Fits (s : Script) (names : List String) (b : Bound) : Prop where
  vars : ∀ x ∈ b.vars, ∃ name, s.arena[x.index]? = some (.variable name .atom)
  guards : ∀ g ∈ b.guards, g.HasSort s .bool
  scope : BindsAtoms s b.scope
  names : ∀ x ∈ names, x ∈ b.scope.map Prod.fst

theorem Bound.Fits.extend {s t : Script} {names : List String} {b : Bound} (h : b.Fits s names)
    (hst : s.Extends t) : b.Fits t names := by
  refine ⟨fun x hx => ?_, fun g hg => (h.guards g hg).extend hst, h.scope.extend hst, h.names⟩
  obtain ⟨name, hd⟩ := h.vars x hx
  exact ⟨name, hst.decl hd⟩

theorem Bound.Fits.isVariable {s : Script} {names : List String} {b : Bound} (h : b.Fits s names) :
    ∀ x ∈ b.vars, ∃ name sort, s.arena[x.index]? = some (.variable name sort) := by
  intro x hx
  obtain ⟨name, hd⟩ := h.vars x hx
  exact ⟨name, _, hd⟩

/-- The variables of two groups are the same ones. -/
theorem hasSort_same {s : Script} {xs ys : List DeclId}
    (hxs : ∀ x ∈ xs, ∃ name, s.arena[x.index]? = some (.variable name .atom))
    (hys : ∀ x ∈ ys, ∃ name, s.arena[x.index]? = some (.variable name .atom)) :
    (Term.conj (List.zipWith (fun x y => .equals (.ref x) (.ref y)) xs ys)).HasSort s .bool := by
  refine Term.hasSort_conj fun t ht => ?_
  rw [← List.map_uncurry_zip_eq_zipWith] at ht
  obtain ⟨⟨x, y⟩, hxy, rfl⟩ := List.mem_map.mp ht
  obtain ⟨hx, hy⟩ := List.of_mem_zip hxy
  obtain ⟨_, hx⟩ := hxs x hx
  obtain ⟨_, hy⟩ := hys y hy
  exact .eq (hasSort_variable hx) (hasSort_variable hy)

theorem yieldsFrom_bindNames {set : Term} {names : List String} {scope : Scope}
    (hset : set.HasSort p.script unaryRelation) (hs : BindsAtoms p.script scope) :
    YieldsFrom p [] (bindNames set names scope) fun s b =>
      b.Fits s (names ++ scope.map Prod.fst) ∧ b.vars.length = names.length := by
  induction names generalizing p scope with
  | nil =>
    exact yieldsFrom_pure ⟨⟨List.forall_mem_nil _, List.forall_mem_nil _, hs, fun x hx => hx⟩, rfl⟩
  | cons name names ih =>
    refine (yieldsFrom_freshVariable .atom).bind fun x q hpq ⟨n, hx⟩ => ?_
    have hscope : BindsAtoms q.script ((name, x) :: scope) :=
      List.forall_mem_cons.mpr ⟨⟨n, hx⟩, hs.extend hpq.extension⟩
    have hset := hset.extend hpq.extension
    refine .liftTerm rfl ((ih hset hscope).bind fun rest r hqr ⟨hrest, hlength⟩ => ?_)
    have hx := hqr.extension.decl hx
    have htuple : (Term.nary .tuple [.ref x]).HasSort r.script (.tuple [.atom]) :=
      Term.hasSort_tuple (by simp) (.cons (hasSort_variable hx) .nil)
    refine yieldsFrom_pure ⟨⟨List.forall_mem_cons.mpr ⟨⟨n, hx⟩, hrest.vars⟩,
      List.forall_mem_cons.mpr ⟨.member htuple (hset.extend hqr.extension), hrest.guards⟩,
      hrest.scope, fun y hy => hrest.names y ?_⟩, congrArg (· + 1) hlength⟩
    simp only [List.cons_append, List.mem_cons, List.mem_append, List.map_cons] at hy ⊢
    tauto

theorem returns_boundSet {expr : String} {encoding : Encoder Encoded}
    (h : YieldsRelation v scope encoding [.atom]) (hv : Declared v p.script)
    (hs : BindsAtoms p.script scope) :
    ∃ t, Returns (boundSet expr encoding) p t p ∧ t.HasSort p.script unaryRelation := by
  obtain ⟨t, ht, hsort⟩ := h.relation hv hs
  refine ⟨t, returns_bind.mpr ⟨_, p, ht, returns_bind.mpr ⟨_, p,
    returns_sortOf.mpr ⟨hsort.sortOf, rfl⟩, ?_⟩⟩, hsort⟩
  exact returns_pure.mpr ⟨rfl, rfl⟩

/-- A formula about some of the variables. -/
theorem hasSort_owing {s : Script} {names : List String} {b : Bound} {e : Encoded}
    (hb : b.Fits s names) (hne : b.vars ≠ []) (he : e.HasSort s .bool) :
    (Encoded.mk e.term (⟨b.vars, .conj b.guards⟩ :: e.witnesses)).HasSort s .bool :=
  ⟨he.term, List.forall_mem_cons.mpr
    ⟨⟨hne, hb.isVariable, Term.hasSort_conj hb.guards⟩, he.witnesses⟩⟩

/-- A formula about all of the variables. -/
theorem yieldsFrom_forAll {vars : List DeclId} {body : Term} (hne : vars ≠ [])
    (hvars : ∀ x ∈ vars, ∃ name sort, p.script.arena[x.index]? = some (.variable name sort))
    (hbody : body.HasSort p.script .bool) :
    YieldsFrom p [] (do return ⟨← liftTerm (Term.forAll vars body), []⟩) fun s e =>
      Encoded.HasSort s e .bool := by
  obtain ⟨hquantify, hsort⟩ := quantify_hasSort (q := .all) hne hvars hbody
  exact .liftTerm hquantify (yieldsFrom_pure (hasSort_encoded hsort))

theorem yields_quantify {quantifier : Relational.Quantifier} {bind : Encoder Bound}
    {body : Scope → Encoder Encoded} {names : List String}
    (hbind : Yields v scope [] bind fun s b => b.Fits s names ∧ b.vars ≠ [])
    (hbody : ∀ inner, (∀ x ∈ names, x ∈ inner.map Prod.fst) →
      YieldsEncoded v inner [] (body inner) .bool) :
    YieldsEncoded v scope [] (quantify quantifier bind body) .bool := by
  intro p hv hs hroom
  refine (hbind hv hs hroom).bind fun xs q hpq ⟨hxs, hne⟩ => ?_
  have hv := hv.extend hpq.extension
  have hs := hs.extend hpq.extension
  have hinner := hbody xs.scope hxs.names
  cases quantifier with
  | all =>
    refine (yields_formula hinner hv hxs.scope (room_zero q)).bind fun holds r hqr hholds => ?_
    have hxs := hxs.extend hqr.extension
    exact yieldsFrom_forAll hne hxs.isVariable (.implies (Term.hasSort_conj hxs.guards) hholds)
  | no =>
    refine (yields_formula hinner hv hxs.scope (room_zero q)).bind fun holds r hqr hholds => ?_
    have hxs := hxs.extend hqr.extension
    exact yieldsFrom_forAll hne hxs.isVariable
      (.implies (Term.hasSort_conj hxs.guards) (.not hholds))
  | some =>
    refine (hinner hv hxs.scope (room_zero q)).bind fun holds r hqr hholds => ?_
    exact yieldsFrom_pure (hasSort_owing (hxs.extend hqr.extension) hne hholds)
  | one =>
    refine (hinner hv hxs.scope (room_zero q)).bind fun holds r hqr hholds => ?_
    have hv := hv.extend hqr.extension
    have hs := hs.extend hqr.extension
    refine (hbind hv hs (room_zero r)).bind fun ys r₁ hr₁ ⟨hys, hne'⟩ => ?_
    refine (yields_formula (hbody ys.scope hys.names) (hv.extend hr₁.extension) hys.scope
      (room_zero r₁)).bind fun again r₂ hr₂ hagain => ?_
    have hlast := hr₁.extension.trans hr₂.extension
    have hxs := hxs.extend (hqr.extension.trans hlast)
    have hys := hys.extend hr₂.extension
    have hholds := hholds.extend hlast
    have hguards : ∀ t ∈ ys.guards ++ [again], t.HasSort r₂.script .bool :=
      List.forall_mem_append.mpr ⟨hys.guards, List.forall_mem_singleton.mpr hagain⟩
    obtain ⟨hquantify, hunique⟩ := quantify_hasSort (q := .all) hne' hys.isVariable
      (.implies (hasSort_conjNontrivial hguards) (hasSort_same hys.vars hxs.vars))
    refine .liftTerm hquantify (yieldsFrom_pure ⟨?_, (hasSort_owing hxs hne hholds).witnesses⟩)
    exact hasSort_conjNontrivial
      (List.forall_mem_cons.mpr ⟨hholds.term, List.forall_mem_singleton.mpr hunique⟩)
  | lone =>
    refine (yields_formula hinner hv hxs.scope (room_zero q)).bind fun first r hqr hfirst => ?_
    have hv := hv.extend hqr.extension
    have hs := hs.extend hqr.extension
    refine (hbind hv hs (room_zero r)).bind fun ys r₁ hr₁ ⟨hys, hne'⟩ => ?_
    refine (yields_formula (hbody ys.scope hys.names) (hv.extend hr₁.extension) hys.scope
      (room_zero r₁)).bind fun second r₂ hr₂ hsecond => ?_
    have hlast := hr₁.extension.trans hr₂.extension
    have hxs := hxs.extend (hqr.extension.trans hlast)
    have hys := hys.extend hr₂.extension
    have hguards : ∀ t ∈ xs.guards ++ [first] ++ ys.guards ++ [second],
        t.HasSort r₂.script .bool := by
      simp only [List.forall_mem_append, List.forall_mem_singleton]
      exact ⟨⟨⟨hxs.guards, hfirst.extend hlast⟩, hys.guards⟩, hsecond⟩
    refine yieldsFrom_forAll (by simp [hne]) ?_
      (.implies (hasSort_conjNontrivial hguards) (hasSort_same hxs.vars hys.vars))
    exact List.forall_mem_append.mpr ⟨hxs.isVariable, hys.isVariable⟩

/-- What the groups mention resolves where `rest` is free below them. -/
structure ResolvesBelow (m : Model) (names : List String) (bs : List (Binding Expr))
    (rest : List String) : Prop where
  free : ∀ x ∈ freeBelow bs rest, x ∈ names
  signatures : ∀ id ∈ signaturesBound bs, (m.signature? id).isSome

theorem yields_encodeBindings (hc : v.Covers) {bs : List (Binding Expr)} {rest : List String}
    (ht : ∀ b ∈ bs, HasColumns v.model b.bound [.atom]) (hcounts : countsBound bs = false)
    (hbs : ResolvesBelow v.model (scope.map Prod.fst) bs rest) :
    Yields v scope [] (encodeBindings v bs scope) fun s b =>
      b.Fits s rest ∧ b.vars.length = (bs.flatMap Binding.names).length := by
  induction bs generalizing scope with
  | nil =>
    intro p _ hs _
    exact yieldsFrom_pure ⟨⟨List.forall_mem_nil _, List.forall_mem_nil _, hs, hbs.free⟩, rfl⟩
  | cons b bs ih =>
    intro p hv hs _
    rw [List.forall_mem_cons] at ht
    rw [countsBound, Bool.or_eq_false_iff] at hcounts
    have hbound : b.bound.Resolves v.model (scope.map Prod.fst) := by
      refine ⟨fun x hx => hbs.free x ?_, fun id hid => hbs.signatures id ?_⟩
      · rw [freeBelow]
        exact List.mem_append_left _ hx
      · rw [signaturesBound]
        exact List.mem_append_left _ hid
    obtain ⟨set, hset, hsort⟩ := returns_boundSet
      (yieldsRelation_encode hc ht.1 hcounts.1 hbound .nested) hv hs
    refine .step hset ((yieldsFrom_bindNames hsort hs).bind fun first q hpq hnames => ?_)
    obtain ⟨hfirst, hlength⟩ := hnames
    have hlater : ResolvesBelow v.model (first.scope.map Prod.fst) bs rest := by
      refine ⟨fun x hx => hfirst.names x ?_, fun id hid => hbs.signatures id ?_⟩
      · by_cases hname : x ∈ b.names
        · exact List.mem_append_left _ hname
        · refine List.mem_append_right _ (hbs.free x ?_)
          rw [freeBelow]
          exact List.mem_append_right _ (List.mem_filter.mpr ⟨hx, decide_eq_true hname⟩)
      · rw [signaturesBound]
        exact List.mem_append_right _ hid
    refine (ih ht.2 hcounts.2 hlater (hv.extend hpq.extension) hfirst.scope
      (room_zero q)).bind fun last r hqr hnames' => ?_
    obtain ⟨hlast, hlength'⟩ := hnames'
    have hfirst := hfirst.extend hqr.extension
    refine yieldsFrom_pure ⟨⟨List.forall_mem_append.mpr ⟨hfirst.vars, hlast.vars⟩,
      List.forall_mem_append.mpr ⟨hfirst.guards, hlast.guards⟩, hlast.scope, hlast.names⟩, ?_⟩
    rw [List.length_append, hlength, hlength', List.flatMap_cons, List.length_append]

end Quantifiers

/-! ## Formulas without cardinalities -/

section Formulas

variable {v : Vocabulary} {scope : Scope} {pos : Position}

theorem encodeCounted_eq : ∀ e : Expr, encodeCounted v e scope =
    e.cardinal?.map fun x => relation (encode v x scope .nested)
  | .unary op e => by
    have ih := encodeCounted_eq e
    cases op <;> first | exact ih | rfl
  | .sig _ | .field _ | .builtin _ | .var _ | .int _ | .binary .. | .list .. | .quantified .. => rfl

theorem cardinal?_of_counts : ∀ {e : Expr}, e.counts = false → e.cardinal? = none
  | .unary op e, h => by
    simp only [Expr.counts, Bool.or_eq_false_iff, decide_eq_false_iff_not] at h
    have ih := cardinal?_of_counts h.2
    cases op with
    | card => exact absurd rfl h.1
    | toInt | toSigned => exact ih
    | _ => rfl
  | .sig _, _ | .field _, _ | .builtin _, _ | .var _, _ | .int _, _ | .binary .., _ | .list .., _
  | .quantified .., _ => rfl

/-- Where neither side counts, a comparison is like any other operator. -/
theorem encode_binary {op : Relational.BinaryOp} {a b : Expr} (ha : a.cardinal? = none)
    (hb : b.cardinal? = none) : encode v (.binary op a b) scope pos =
      binaryExpr v op a b (encode v a scope .nested) (encode v b scope .nested)
        [encode v a scope pos, encode v b scope pos] := by
  rw [encode]
  split
  · rfl
  · simp [encodeCounted_eq, ha, hb]

theorem encodeAll_eq (es : List Expr) :
    encodeAll v es scope pos = es.map fun e => encode v e scope pos := by
  induction es with
  | nil => rw [encodeAll, List.map_nil]
  | cons e es ih => rw [encodeAll, ih, List.map_cons]

theorem counts_of_countsAny {es : List Expr} (h : countsAny es = false) :
    ∀ e ∈ es, e.counts = false := by
  induction es with
  | nil => exact nofun
  | cons e es ih =>
    rw [countsAny, Bool.or_eq_false_iff] at h
    exact List.forall_mem_cons.mpr ⟨h.1, ih h.2⟩

/-- A relation compared with one of the same columns. -/
theorem yields_relations {op : Relational.BinaryOp} {a b : Expr} {cs : List ColumnType}
    {lhs rhs : Encoder Encoded} {conjuncts : List (Encoder Encoded)}
    (hop : op ∈ [.equals, .notEquals, .inside, .notInside])
    (hl : YieldsRelation v scope lhs cs) (hr : YieldsRelation v scope rhs cs) :
    YieldsEncoded v scope [] (binaryExpr v op a b lhs rhs conjuncts) .bool := by
  have hequals : YieldsEncoded v scope [] (setOperation lhs rhs .equals) .bool :=
    yields_setOperation hl hr fun ha hb => .eq ha hb
  have hinside : YieldsEncoded v scope [] (setOperation lhs rhs .subset) .bool :=
    yields_setOperation hl hr fun ha hb => .subset ha hb
  simp only [List.mem_cons, List.not_mem_nil, or_false] at hop
  rcases hop with rfl | rfl | rfl | rfl
  · exact hequals
  · exact yields_negation hequals
  · exact hinside
  · exact yields_negation hinside

theorem yields_numbers {op : Relational.BinaryOp} {a b : Expr} {lhs rhs : Encoder Encoded}
    {conjuncts : List (Encoder Encoded)} (hop : op ∈ [.lt, .le, .gt, .ge])
    (hl : YieldsRelation v scope lhs [.int]) (hr : YieldsRelation v scope rhs [.int]) :
    YieldsEncoded v scope [] (binaryExpr v op a b lhs rhs conjuncts) .bool := by
  have hboth : ∀ op ∈ [BinaryOp.lt, .le, .gt, .ge],
      YieldsEncoded v scope [] (both (intValue v a lhs) (intValue v b rhs) (.binary op)) .bool :=
    fun op hop => yields_both (yields_intValue hl) (yields_intValue hr) fun ha hb =>
      .comparison hop ha hb
  simp only [List.mem_cons, List.not_mem_nil, or_false] at hop
  rcases hop with rfl | rfl | rfl | rfl
  · exact hboth .lt (by simp)
  · exact hboth .le (by simp)
  · exact hboth .gt (by simp)
  · exact hboth .ge (by simp)

theorem yields_multiplicity {op : Relational.UnaryOp} {e : Expr} {cs : List ColumnType}
    {encoding : Encoder Encoded} (hop : op ∈ [.no, .some, .one, .lone]) (hcs : cs ≠ [])
    (h : YieldsRelation v scope encoding cs) :
    YieldsEncoded v scope [] (unaryExpr v op e encoding) .bool := by
  simp only [List.mem_cons, List.not_mem_nil, or_false] at hop
  rcases hop with rfl | rfl | rfl | rfl <;> simp only [unaryExpr]
  · exact yields_emptiness h hcs
  · exact yields_witnessed h hcs fun ht hset => .member ht hset
  · exact yields_witnessed h hcs fun ht hset => .eq (.singleton ht rfl) hset
  · exact yields_witnessed h hcs fun ht hset => .subset hset (.singleton ht rfl)

/-- A formula without cardinalities draws nothing but variables. -/
theorem yields_encode (hc : v.Covers) {e : Expr} (ht : WellTyped v.model e)
    (hcounts : e.counts = false) (he : e.Resolves v.model (scope.map Prod.fst)) (pos : Position) :
    YieldsEncoded v scope [] (encode v e scope pos) .bool := by
  induction ht generalizing scope pos with
  | multiplicity hop ht =>
    simp only [Expr.counts, Bool.or_eq_false_iff] at hcounts
    rw [encode]
    exact yields_multiplicity hop (HasColumns.ne_nil ht)
      (yieldsRelation_encode hc ht hcounts.2 he.unary .nested)
  | not _ ih =>
    simp only [Expr.counts, Bool.or_eq_false_iff] at hcounts
    rw [encode]
    exact yields_negation (ih hcounts.2 he.unary .nested)
  | relations hop ha hb =>
    simp only [Expr.counts, Bool.or_eq_false_iff] at hcounts
    rw [encode_binary (cardinal?_of_counts hcounts.1) (cardinal?_of_counts hcounts.2)]
    exact yields_relations hop (yieldsRelation_encode hc ha hcounts.1 he.left .nested)
      (yieldsRelation_encode hc hb hcounts.2 he.right .nested)
  | numbers hop ha hb =>
    simp only [Expr.counts, Bool.or_eq_false_iff] at hcounts
    rw [encode_binary (cardinal?_of_counts hcounts.1) (cardinal?_of_counts hcounts.2)]
    exact yields_numbers hop (yieldsRelation_encode hc ha hcounts.1 he.left .nested)
      (yieldsRelation_encode hc hb hcounts.2 he.right .nested)
  | @connective op a b hop _ _ iha ihb =>
    simp only [Expr.counts, Bool.or_eq_false_iff] at hcounts
    rw [encode_binary (cardinal?_of_counts hcounts.1) (cardinal?_of_counts hcounts.2)]
    have ha := fun pos => iha hcounts.1 he.left pos
    have hb := fun pos => ihb hcounts.2 he.right pos
    have hpair : ∀ pos, ∀ e ∈ [a, b], YieldsEncoded v scope [] (encode v e scope pos) .bool :=
      fun pos => List.forall_mem_cons.mpr ⟨ha pos, List.forall_mem_singleton.mpr (hb pos)⟩
    simp only [List.mem_cons, List.not_mem_nil, or_false] at hop
    rcases hop with rfl | rfl | rfl | rfl
    · have hboth : YieldsEncoded v scope ([a, b].flatMap fun _ => [])
          (conjunction ([a, b].map fun e => encode v e scope pos)) .bool :=
        yields_conjunction (hpair pos)
      exact hboth
    · exact yields_disjunction (hpair .nested)
    · exact yields_connective (ha .nested) (hb .nested) fun ha hb => .implies ha hb
    · exact yields_connective (ha .nested) (hb .nested) fun ha hb => .eq ha hb
  | @list op es _ ih =>
    have hall : ∀ pos, ∀ e ∈ es, YieldsEncoded v scope [] (encode v e scope pos) .bool :=
      fun pos e hmem => ih e hmem (counts_of_countsAny (by simpa [Expr.counts] using hcounts) e hmem)
        (he.operand hmem) pos
    have hnone : es.flatMap (fun _ => ([] : List Nat)) = [] :=
      List.flatMap_eq_nil_iff.mpr fun _ _ => rfl
    cases op with
    | and =>
      rw [encode, encodeAll_eq, ← hnone]
      exact yields_conjunction (hall pos)
    | or =>
      rw [encode, encodeAll_eq]
      exact yields_disjunction (hall .nested)
  | @quantified q bs body hbs hne _ ih =>
    simp only [Expr.counts, Bool.or_eq_false_iff] at hcounts
    rw [encode]
    have hgroups : ResolvesBelow v.model (scope.map Prod.fst) bs body.free := by
      refine ⟨fun x hx => he.free x (by rwa [Expr.free]), fun id hid => he.signatures id ?_⟩
      rw [Expr.signatures]
      exact List.mem_append_left _ hid
    have hsignatures : ∀ id ∈ body.signatures, (v.model.signature? id).isSome := by
      intro id hid
      refine he.signatures id ?_
      rw [Expr.signatures]
      exact List.mem_append_right _ hid
    have hbind : Yields v scope [] (encodeBindings v bs scope) fun s b =>
        b.Fits s body.free ∧ b.vars ≠ [] := by
      intro p hv hs hroom
      obtain ⟨b, q, hb, hpq, hfits, hlength⟩ :=
        yields_encodeBindings hc hbs hcounts.1 hgroups hv hs hroom
      refine ⟨b, q, hb, hpq, hfits, ?_⟩
      rw [← List.length_pos_iff, hlength]
      exact List.length_pos_iff.mpr hne
    exact yields_quantify hbind fun inner hinner => ih hcounts.2 ⟨hinner, hsignatures⟩ .nested

end Formulas

end Encoding

end TupleLogic
