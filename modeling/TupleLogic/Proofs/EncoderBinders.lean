import TupleLogic.Proofs.Binders
import TupleLogic.Proofs.GroundedEncoding

/-! What encodings bind. The variables drawn for an expression are those that
its term binds and those that its witnesses still owe, each once: hoisting a
witness neither loses nor repeats it. Only terms that stand for sets are ever
dropped or used several times, and these bind nothing. -/

namespace TupleLogic

namespace Term

/-! ## Terms built by rule -/

section Build

variable {ts : List Term} {t u : Term}

theorem binders_of_isTrue (h : t.isTrue = true) : t.binders = [] := by
  unfold isTrue at h
  split at h
  · rfl
  · cases h

theorem binders_conj (ts : List Term) : (conj ts).binders = bindersAll ts := by
  unfold conj
  split
  · rfl
  · simp [bindersAll]
  · rfl

theorem binders_disj (ts : List Term) : (disj ts).binders = bindersAll ts := by
  unfold disj
  split
  · rfl
  · simp [bindersAll]
  · rfl

theorem bindersAll_nontrivial (ts : List Term) :
    bindersAll (ts.filter fun t => !t.isTrue) = bindersAll ts := by
  induction ts with
  | nil => rfl
  | cons t ts ih =>
    rw [List.filter_cons, bindersAll]
    split
    · rw [bindersAll, ih]
    · rename_i htrue
      rw [ih, binders_of_isTrue (by simpa using htrue), List.nil_append]

theorem bindersAll_eq_nil (h : ∀ t ∈ ts, t.binders = []) : bindersAll ts = [] := by
  rw [bindersAll_eq, List.flatMap_eq_nil_iff]
  exact h

theorem bindersAll_append (ts us : List Term) :
    bindersAll (ts ++ us) = bindersAll ts ++ bindersAll us := by
  simp only [bindersAll_eq, List.flatMap_append]

theorem binders_mkTuple (h : mkTuple ts = .ok u) : u.binders = bindersAll ts := by
  unfold mkTuple at h
  split at h
  · cases h
  · cases h
    rfl

theorem binders_mkTuple_ref {x : DeclId} (h : mkTuple [.ref x] = .ok u) : u.binders = [] :=
  binders_mkTuple h

theorem eq_quantified {q : Quantifier} {vars : List DeclId} (h : quantify q vars t = .ok u) :
    u = .quantified q vars t := by
  unfold quantify at h
  split at h
  · cases h
  · exact (Except.ok.inj h).symm

theorem binders_foldl_union (ts : List Term) (t : Term) :
    (ts.foldl union t).binders = t.binders ++ bindersAll ts := by
  induction ts generalizing t with
  | nil => simp [bindersAll]
  | cons u ts ih => rw [List.foldl_cons, ih, union, binders, bindersAll, List.append_assoc]

theorem binders_unionAll (h : unionAll ts = .ok u) : u.binders = bindersAll ts := by
  cases ts with
  | nil => cases h
  | cons t ts =>
    cases h
    exact binders_foldl_union ts t

/-- Variables that are compared one by one. -/
theorem bindersAll_same (xs ys : List DeclId) :
    bindersAll (List.zipWith (fun x y => .equals (.ref x) (.ref y)) xs ys) = [] := by
  refine bindersAll_eq_nil fun t ht => ?_
  obtain ⟨i, _, rfl⟩ := List.getElem_of_mem ht
  rw [List.getElem_zipWith]
  rfl

end Build

/-! ## Terms that stand for sets -/

/-- If the term has a set sort, it binds nothing. -/
def PlainIfSet (t : Term) : Prop :=
  ∀ (s : Script) (e : TermSort), s.sortOf t = .ok (.set e) → t.binders = []

section Plain

variable {a b t u : Term} {ts : List Term}

theorem plain_of_binders (h : t.binders = []) : t.PlainIfSet := fun _ _ _ => h

theorem eq_set_of_columnsFor {sort : TermSort} {op : RelationOp} {cs : List TermSort}
    (h : sort.columnsFor op = .ok cs) : sort = .set (.tuple cs) := by
  unfold TermSort.columnsFor at h
  split at h
  · cases h
    rfl
  · cases h

theorem plain_not (a : Term) : (Term.not a).PlainIfSet := fun _ _ h => by
  simp [Term.not, Script.sortOf] at h

theorem plain_transpose (ha : a.PlainIfSet) : a.transpose.PlainIfSet := by
  intro s e h
  simp only [transpose, Script.sortOf] at h
  obtain ⟨sort, hsort, h⟩ := bind_eq_ok.mp h
  obtain ⟨cs, hcs, _⟩ := bind_eq_ok.mp h
  rw [eq_set_of_columnsFor hcs] at hsort
  exact ha s _ hsort

theorem plain_closure (ha : a.PlainIfSet) : a.closure.PlainIfSet := by
  intro s e h
  simp only [closure, Script.sortOf] at h
  obtain ⟨sort, hsort, h⟩ := bind_eq_ok.mp h
  obtain ⟨cs, hcs, _⟩ := bind_eq_ok.mp h
  rw [eq_set_of_columnsFor hcs] at hsort
  exact ha s _ hsort

/-- Comparisons and connectives stand for no set, and the operands of a set
operation stand for sets. -/
theorem plain_binary {op : BinaryOp} (hop : op ≠ .select) (ha : a.PlainIfSet) (hb : b.PlainIfSet) :
    (Term.binary op a b).PlainIfSet := by
  intro s e h
  suffices hsets : ∃ e₁ e₂, s.sortOf a = .ok (.set e₁) ∧ s.sortOf b = .ok (.set e₂) by
    obtain ⟨e₁, e₂, hl, hr⟩ := hsets
    rw [binders, ha s e₁ hl, hb s e₂ hr, List.append_nil]
  have hsame : ∀ {op}, (do
      let l ← s.sortOf a
      let r ← s.sortOf b
      if l = r then return l else throw (.malformed (.differentSorts op l r))) =
        Except.ok (TermSort.set e) →
      ∃ e₁ e₂, s.sortOf a = .ok (.set e₁) ∧ s.sortOf b = .ok (.set e₂) := by
    intro op h
    obtain ⟨l, hl, h⟩ := bind_eq_ok.mp h
    obtain ⟨r, hr, h⟩ := bind_eq_ok.mp h
    split at h
    · rename_i hlr
      cases h
      exact ⟨e, e, hl, hlr ▸ hr⟩
    · cases h
  cases op with
  | select => exact absurd rfl hop
  | union | intersection | difference => exact hsame (by simpa only [Script.sortOf] using h)
  | join | product =>
    simp only [Script.sortOf] at h
    obtain ⟨l, hl, h⟩ := bind_eq_ok.mp h
    obtain ⟨r, hr, h⟩ := bind_eq_ok.mp h
    obtain ⟨lc, hlc, h⟩ := bind_eq_ok.mp h
    obtain ⟨rc, hrc, h⟩ := bind_eq_ok.mp h
    rw [eq_set_of_columnsFor hlc] at hl
    rw [eq_set_of_columnsFor hrc] at hr
    exact ⟨_, _, hl, hr⟩
  | _ => simp [Script.sortOf] at h

theorem plain_quantified {q : Quantifier} {vars : List DeclId} :
    (Term.quantified q vars a).PlainIfSet := fun _ _ h => by simp [Script.sortOf] at h

theorem plain_quantify {q : Quantifier} {vars : List DeclId} (h : quantify q vars a = .ok u) :
    u.PlainIfSet := by
  rw [eq_quantified h]
  exact plain_quantified

/-- A conjunction of one term is that term, and any other is a formula. -/
theorem plain_conj (h : ∀ t ∈ ts, t.PlainIfSet) : (conj ts).PlainIfSet := by
  unfold conj
  split
  · exact plain_of_binders rfl
  · exact h _ (List.mem_singleton.mpr rfl)
  · intro s e hs
    simp [Script.sortOf] at hs

theorem plain_disj (h : ∀ t ∈ ts, t.PlainIfSet) : (disj ts).PlainIfSet := by
  unfold disj
  split
  · exact plain_of_binders rfl
  · exact h _ (List.mem_singleton.mpr rfl)
  · intro s e hs
    simp [Script.sortOf] at hs

end Plain

end Term

namespace Encoding

open Relational Encoder

theorem binders_conjNontrivial (ts : List Term) :
    (conjNontrivial ts).binders = Term.bindersAll ts := by
  rw [conjNontrivial, Term.binders_conj, Term.bindersAll_nontrivial]

theorem plain_conjNontrivial {ts : List Term} (h : ∀ t ∈ ts, t.PlainIfSet) :
    (conjNontrivial ts).PlainIfSet :=
  Term.plain_conj fun t ht => h t (List.mem_of_mem_filter ht)

/-! ## What is bound and what is owed -/

def Witness.binders (w : Witness) : List DeclId := w.vars ++ w.guard.binders

/-- What the term binds, and what is to be bound around it. -/
def Encoded.binders (e : Encoded) : List DeclId :=
  e.term.binders ++ e.witnesses.flatMap Witness.binders

/-- Closing binds what was owed. -/
theorem Encoded.close_binders {e : Encoded} {t : Term} (h : e.close = .ok t) :
    t.binders.Perm e.binders := by
  unfold Encoded.close at h
  split at h
  · rename_i hnone
    cases h
    rw [Encoded.binders, List.isEmpty_iff.mp hnone, List.flatMap_nil, List.append_nil]
  · rw [Term.eq_quantified h, Term.binders, binders_conjNontrivial, Encoded.binders,
      Term.bindersAll_eq, List.flatMap_append, List.flatMap_map, List.flatMap_singleton]
    have hsplit := e.witnesses.flatMap_append_perm Witness.vars fun w => w.guard.binders
    rw [← List.append_assoc]
    exact (hsplit.append_right _).trans List.perm_append_comm

theorem Encoded.close_plain {e : Encoded} {t : Term} (he : e.term.PlainIfSet)
    (h : e.close = .ok t) : t.PlainIfSet := by
  unfold Encoded.close at h
  split at h
  · cases h
    exact he
  · exact Term.plain_quantify h

/-- Operands that are put together owe what each of them owes. -/
theorem Encoded.binders_all (es : List Encoded) :
    (Encoded.mk (conjNontrivial (es.map Encoded.term)) (es.flatMap Encoded.witnesses)).binders.Perm
      (es.flatMap Encoded.binders) := by
  rw [Encoded.binders, binders_conjNontrivial, Term.bindersAll_eq, List.flatMap_map,
    List.flatMap_assoc]
  exact es.flatMap_append_perm _ _

/-! ## Runs -/

/-- The variables that a run adds are those that its result accounts for. -/
def Charging {α : Type} (m : Encoder α) (binders : α → List DeclId) (post : α → Prop) : Prop :=
  ∀ ⦃p a q⦄, Returns m p a q → p.script.Charges q.script (binders a) ∧ post a

/-- The encoding of an expression accounts for its variables. -/
def Accounted (m : Encoder Encoded) : Prop :=
  Charging m Encoded.binders fun e => e.term.PlainIfSet

/-- A run binds all the variables that it adds. -/
def Settles (m : Encoder Unit) : Prop := Charging m (fun _ => []) fun _ => True

section Runs

variable {α β : Type} {p q : Progress}

theorem charging_freshVariable {sort : TermSort} :
    Charging (freshVariable sort) (fun x => [x]) fun _ => True := by
  intro p x q h
  obtain ⟨rfl, rfl⟩ := returns_freshVariable.mp h
  exact ⟨Script.charges_addVariable _ _ _, trivial⟩

theorem charges_declareFunction {name : String} {inputs : List TermSort} {output : TermSort}
    {x : DeclId} (h : Returns (edit (.declareFunction name inputs output)) p x q) :
    p.script.Charges q.script [] := by
  obtain ⟨s, hs, rfl⟩ := returns_edit.mp h
  obtain ⟨_, _, rfl⟩ := Script.declareFunction_eq_add.mp hs
  exact Script.charges_add nofun (.refl _)

theorem charges_declareConstant {name : String} {sort : TermSort} {x : DeclId}
    (h : Returns (edit (.declareConstant name sort)) p x q) : p.script.Charges q.script [] := by
  obtain ⟨s, hs, rfl⟩ := returns_edit.mp h
  obtain ⟨_, _, rfl⟩ := Script.declareConstant_eq_add.mp hs
  exact Script.charges_add nofun (.refl _)

/-- An assertion that binds what is owed. -/
theorem charges_assertTerm {s : Script} {name : Option String} {t : Term} {u : PUnit}
    (ht : s.Charges p.script t.binders) (h : Returns (assertTerm name t) p u q) :
    s.Charges q.script [] := by
  obtain rfl := returns_assertTerm.mp h
  exact Script.charges_addAssertion ht

theorem charging_mapM {f : α → Encoder β} {xs : List α} {binders : β → List DeclId}
    {post : β → Prop} (h : ∀ x ∈ xs, Charging (f x) binders post) :
    Charging (xs.mapM f) (fun ys => ys.flatMap binders) fun ys => ∀ y ∈ ys, post y := by
  induction xs with
  | nil =>
    intro p ys q hys
    obtain ⟨rfl, rfl⟩ := returns_mapM_nil.mp hys
    exact ⟨.refl _, nofun⟩
  | cons x xs ih =>
    intro p ys q hys
    rw [List.forall_mem_cons] at h
    obtain ⟨y, r, ys', hx, hxs, rfl⟩ := returns_mapM_cons.mp hys
    obtain ⟨hr, hy⟩ := h.1 hx
    obtain ⟨hq, hys'⟩ := ih h.2 hxs
    exact ⟨hr.trans hq, List.forall_mem_cons.mpr ⟨hy, hys'⟩⟩

theorem settles_pure : Settles (pure ()) := by
  intro p u q h
  obtain ⟨_, rfl⟩ := returns_pure.mp h
  exact ⟨.refl _, trivial⟩

theorem Settles.seq {first second : Encoder Unit} (h : Settles first) (h' : Settles second) :
    Settles (first >>= fun _ => second) := by
  intro p u q hu
  obtain ⟨_, r, hfirst, hsecond⟩ := returns_bind.mp hu
  exact ⟨(h hfirst).1.trans (h' hsecond).1, trivial⟩

theorem settles_forM {f : α → Encoder PUnit} {xs : List α} (h : ∀ x ∈ xs, Settles (f x)) :
    Settles (xs.forM f) := by
  induction xs with
  | nil =>
    intro p u q hu
    obtain rfl := returns_forM_nil.mp hu
    exact ⟨.refl _, trivial⟩
  | cons x xs ih =>
    intro p u q hu
    rw [List.forall_mem_cons] at h
    obtain ⟨r, hx, hxs⟩ := returns_forM_cons.mp hu
    exact ⟨(h.1 hx).1.trans (ih h.2 hxs).1, trivial⟩

end Runs

/-! ## References -/

section References

variable {v : Vocabulary} {p q : Progress} {t : Term}

theorem binders_sigRelation {id : SigId} (h : Returns (v.sigRelation id) p t q) :
    t.binders = [] ∧ q = p := by
  obtain ⟨d, _, rfl, rfl⟩ := returns_sigRelation.mp h
  exact ⟨rfl, rfl⟩

theorem binders_fieldRelation {id : FieldId} (h : Returns (v.fieldRelation id) p t q) :
    t.binders = [] ∧ q = p := by
  obtain ⟨d, _, rfl, rfl⟩ := returns_fieldRelation.mp h
  exact ⟨rfl, rfl⟩

theorem binders_builtinRelation {b : Builtin} (h : Returns (v.builtinRelation b) p t q) :
    t.binders = [] ∧ q = p := by
  cases b with
  | int => exact (not_returns_unsupported h).elim
  | _ =>
    obtain ⟨rfl, rfl⟩ := returns_pure.mp h
    exact ⟨rfl, rfl⟩

/-- A term that binds nothing and owes nothing. -/
theorem accounted_plain {m : Encoder Term} (h : ∀ {p t q}, Returns m p t q → t.binders = [] ∧ q = p) :
    Accounted (do return (⟨← m, []⟩ : Encoded)) := by
  intro p e q he
  simp only [returns_bind, returns_pure] at he
  obtain ⟨t, _, ht, rfl, rfl⟩ := he
  obtain ⟨hbinders, rfl⟩ := h ht
  refine ⟨?_, Term.plain_of_binders hbinders⟩
  simp only [Encoded.binders, hbinders, List.flatMap_nil, List.append_nil]
  exact .refl _

end References

/-! ## Formulas and relations -/

section Constructs

variable {lhs rhs encoding : Encoder Encoded} {v : Vocabulary}

theorem charging_formula (h : Accounted encoding) :
    Charging (formula encoding) Term.binders Term.PlainIfSet := by
  intro p t q ht
  obtain ⟨e, he, hclose⟩ := returns_formula.mp ht
  obtain ⟨hq, hplain⟩ := h he
  exact ⟨hq.perm (Encoded.close_binders hclose).symm, Encoded.close_plain hplain hclose⟩

/-- Only references are promoted, and these bind nothing. -/
theorem binders_promote {p q : Progress} {t u : Term} (h : Returns (promote t) p u q) :
    (u = t ∨ u.binders = [] ∧ t.binders = []) ∧ q = p := by
  unfold promote at h
  split at h
  · obtain ⟨rfl, rfl⟩ := returns_pure.mp h
    exact ⟨.inl rfl, rfl⟩
  · rename_i id hid
    have ht : t = .ref id := by
      unfold Term.decl? at hid
      split at hid
      · cases hid
        rfl
      · cases hid
    subst ht
    simp only [returns_bind, returns_get, returns_liftTerm] at h
    obtain ⟨_, _, ⟨rfl, rfl⟩, d, _, ⟨_, rfl⟩, h⟩ := h
    split at h
    · obtain ⟨rfl, rfl⟩ := returns_pure.mp h
      exact ⟨.inl rfl, rfl⟩
    · obtain ⟨rfl, rfl⟩ := returns_pure.mp h
      exact ⟨.inr ⟨rfl, rfl⟩, rfl⟩
    · simp only [returns_bind, returns_liftTerm, returns_pure] at h
      obtain ⟨tuple, _, ⟨htuple, rfl⟩, rfl, rfl⟩ := h
      refine ⟨.inr ⟨?_, rfl⟩, rfl⟩
      rw [Term.singleton, Term.binders]
      exact Term.binders_mkTuple_ref htuple

theorem accounted_relation (h : Accounted encoding) : Accounted (relation encoding) := by
  intro p e q he
  obtain ⟨e', r, t, he', ht, rfl⟩ := returns_relation.mp he
  obtain ⟨hr, hplain⟩ := h he'
  obtain ⟨hpromoted, rfl⟩ := binders_promote ht
  rcases hpromoted with rfl | ⟨hnew, hold⟩
  · exact ⟨hr, hplain⟩
  · refine ⟨?_, Term.plain_of_binders hnew⟩
    rw [Encoded.binders, hold] at hr
    rw [Encoded.binders, hnew]
    exact hr

/-- Two operands side by side, joined by an operator. -/
theorem accounted_both (hl : Accounted lhs) (hr : Accounted rhs) {op : BinaryOp}
    (hop : op ≠ .select) : Accounted (both lhs rhs (.binary op)) := by
  intro p e q he
  obtain ⟨a, r, b, ha, hb, rfl⟩ := returns_both.mp he
  obtain ⟨hpr, ha⟩ := hl ha
  obtain ⟨hrq, hb⟩ := hr hb
  refine ⟨(hpr.trans hrq).of_count fun x => ?_, Term.plain_binary hop ha hb⟩
  simp only [Encoded.binders, Term.binders, List.flatMap_append, List.count_append]
  omega

theorem accounted_setOperation (hl : Accounted lhs) (hr : Accounted rhs) {op : BinaryOp}
    (hop : op ≠ .select) : Accounted (setOperation lhs rhs (.binary op)) :=
  accounted_both (accounted_relation hl) (accounted_relation hr) hop

theorem accounted_joinRelations {expr : String} (hl : Accounted lhs) (hr : Accounted rhs) :
    Accounted (joinRelations expr lhs rhs) :=
  fun _ _ _ he => accounted_setOperation hl hr (by decide) (returns_joinRelations he)

theorem accounted_binaryRelation {expr : String} (h : Accounted encoding) {build : Term → Term}
    (hbinders : ∀ t, (build t).binders = t.binders)
    (hplain : ∀ {t}, t.PlainIfSet → (build t).PlainIfSet) :
    Accounted (do return (← binaryRelation expr encoding).map build) := by
  intro p e q he
  simp only [returns_bind, returns_pure] at he
  obtain ⟨e', _, he', rfl, rfl⟩ := he
  obtain ⟨hq, hset⟩ := accounted_relation h (returns_binaryRelation he')
  refine ⟨?_, hplain hset⟩
  rw [Encoded.map, Encoded.binders, hbinders]
  exact hq

theorem accounted_conjunction {operands : List (Encoder Encoded)}
    (h : ∀ e ∈ operands, Accounted e) : Accounted (conjunction operands) := by
  intro p e q he
  simp only [conjunction, returns_bind, returns_liftTerm, returns_pure] at he
  obtain ⟨es, _, hes, t, _, ⟨ht, rfl⟩, rfl, rfl⟩ := he
  obtain ⟨hq, hes⟩ := charging_mapM h hes
  have hplain : (conjNontrivial (es.map Encoded.term)).PlainIfSet := by
    refine plain_conjNontrivial fun t ht => ?_
    obtain ⟨e, he, rfl⟩ := List.mem_map.mp ht
    exact hes e he
  refine ⟨hq.perm ?_, Encoded.close_plain hplain ht⟩
  rw [Encoded.binders, List.flatMap_nil, List.append_nil]
  exact (Encoded.binders_all es).symm.trans (Encoded.close_binders ht).symm

theorem accounted_disjunction {operands : List (Encoder Encoded)}
    (h : ∀ e ∈ operands, Accounted e) : Accounted (disjunction operands) := by
  intro p e q he
  simp only [disjunction, returns_bind, returns_pure] at he
  obtain ⟨ts, _, hts, rfl, rfl⟩ := he
  obtain ⟨hq, hts⟩ := charging_mapM (fun e he => charging_formula (h e he)) hts
  refine ⟨?_, Term.plain_disj hts⟩
  rw [Encoded.binders, Term.binders_disj, Term.bindersAll_eq, List.flatMap_nil, List.append_nil]
  exact hq

theorem accounted_connective (hl : Accounted lhs) (hr : Accounted rhs) {op : BinaryOp}
    (hop : op ≠ .select) : Accounted (connective lhs rhs (.binary op)) := by
  intro p e q he
  simp only [connective, returns_bind, returns_pure] at he
  obtain ⟨a, r, ha, b, _, hb, rfl, rfl⟩ := he
  obtain ⟨hpr, ha⟩ := charging_formula hl ha
  obtain ⟨hrq, hb⟩ := charging_formula hr hb
  refine ⟨?_, Term.plain_binary hop ha hb⟩
  rw [Encoded.binders, Term.binders, List.flatMap_nil, List.append_nil]
  exact hpr.trans hrq

theorem accounted_negation (h : Accounted encoding) :
    Accounted (do return (⟨.not (← formula encoding), []⟩ : Encoded)) := by
  intro p e q he
  simp only [returns_bind, returns_pure] at he
  obtain ⟨t, _, ht, rfl, rfl⟩ := he
  obtain ⟨hq, _⟩ := charging_formula h ht
  refine ⟨?_, Term.plain_not t⟩
  rw [Encoded.binders, Term.not, Term.binders, List.flatMap_nil, List.append_nil]
  exact hq

/-! ## Claims that owe witnesses -/

theorem charging_specimenColumn {expr : String} {sort : TermSort} :
    Charging (specimenColumn expr sort) (fun c => [c.1]) fun c => c.2.binders = [] := by
  intro p c q h
  unfold specimenColumn at h
  split at h
  · obtain ⟨x, _, hx, h⟩ := returns_bind.mp h
    obtain ⟨rfl, rfl⟩ := returns_pure.mp h
    exact ⟨(charging_freshVariable hx).1, rfl⟩
  · obtain ⟨x, _, hx, h⟩ := returns_bind.mp h
    obtain ⟨rfl, rfl⟩ := returns_pure.mp h
    exact ⟨(charging_freshVariable hx).1, rfl⟩
  · exact (not_returns_unsupported h).elim

theorem charging_specimen {expr : String} {sort : TermSort} :
    Charging (specimen expr sort) Specimen.vars fun sample => sample.tuple.binders = [] := by
  intro p sample q h
  unfold specimen at h
  split at h
  · exact (not_returns_unsupported h).elim
  · simp only [returns_bind, returns_liftTerm, returns_pure] at h
    obtain ⟨cs, _, hcs, tuple, _, ⟨htuple, rfl⟩, rfl, rfl⟩ := h
    obtain ⟨hq, hcs⟩ := charging_mapM (fun c _ => charging_specimenColumn) hcs
    have hvars : cs.map Prod.fst = cs.flatMap fun c => [c.1] := List.map_eq_flatMap
    have hbinders : tuple.binders = [] := by
      rw [Term.binders_mkTuple htuple]
      refine Term.bindersAll_eq_nil fun t ht => ?_
      obtain ⟨c, hc, rfl⟩ := List.mem_map.mp ht
      exact hcs c hc
    exact ⟨hvars ▸ hq, hbinders⟩

/-- The guard says something of the tuple and the set, in either order. -/
theorem accounted_witnessed {expr : String} {guard : Term → Term → Term} (h : Accounted encoding)
    (hguard : ∀ tuple set, tuple.binders = [] → (guard tuple set).binders = set.binders) :
    Accounted (witnessed expr guard encoding) := by
  intro p e q he
  simp only [witnessed, returns_bind, returns_sortOf] at he
  obtain ⟨set, r, hset, sort, _, ⟨_, rfl⟩, sample, r', hsample, he⟩ := he
  obtain ⟨hr, _⟩ := accounted_relation h hset
  obtain ⟨hr', htuple⟩ := charging_specimen hsample
  have hclaim := hguard sample.tuple set.term htuple
  -- a companion is one variable more, and its equation binds nothing
  have hcompanion : ∀ {sort x t}, Returns (freshVariable sort) r' x t →
      p.script.Charges t.script (set.binders ++ (sample.vars ++ [x])) := fun hx =>
    hr.trans (hr'.trans (charging_freshVariable hx).1)
  split at he
  · simp only [returns_bind, returns_pure] at he
    obtain ⟨x, t, hx, _, _, ⟨rfl, rfl⟩, rfl, rfl⟩ := he
    refine ⟨(hcompanion hx).of_count fun y => ?_, Term.plain_of_binders rfl⟩
    simp only [Encoded.binders, Witness.binders, Term.and, Term.equals, binaryIntValue, Term.binders,
      Term.bindersAll, hclaim, htuple, List.flatMap_append, List.flatMap_singleton, List.count_append,
      List.append_nil, List.count_nil]
    omega
  split at he
  · simp only [returns_bind, returns_pure] at he
    obtain ⟨x, t, hx, _, _, ⟨rfl, rfl⟩, rfl, rfl⟩ := he
    refine ⟨(hcompanion hx).of_count fun y => ?_, Term.plain_of_binders rfl⟩
    simp only [Encoded.binders, Witness.binders, Term.and, Term.equals, ternaryIntValue, Term.binders,
      Term.bindersAll, hclaim, htuple, List.flatMap_append, List.flatMap_singleton, List.count_append,
      List.append_nil, List.count_nil]
    omega
  · simp only [returns_bind, returns_pure] at he
    obtain ⟨_, _, ⟨rfl, rfl⟩, rfl, rfl⟩ := he
    refine ⟨(hr.trans hr').of_count fun y => ?_, Term.plain_of_binders rfl⟩
    simp only [Encoded.binders, Witness.binders, Term.binders, hclaim, List.flatMap_append,
      List.flatMap_singleton, List.count_append, List.count_nil]
    omega

theorem accounted_emptiness {expr : String} (h : Accounted encoding) :
    Accounted (emptiness expr encoding) := by
  intro p e q he
  simp only [emptiness, returns_bind, returns_sortOf] at he
  obtain ⟨set, r, hset, sort, _, ⟨_, rfl⟩, he⟩ := he
  obtain ⟨hr, hplain⟩ := accounted_relation h hset
  split at he
  · rename_i hnone
    simp only [returns_bind, returns_liftTerm, returns_pure] at he
    obtain ⟨sample, _, hsample, t, _, ⟨ht, rfl⟩, rfl, rfl⟩ := he
    obtain ⟨hr', htuple⟩ := charging_specimen hsample
    refine ⟨(hr.trans hr').of_count fun x => ?_, Term.plain_quantify ht⟩
    rw [Term.eq_quantified ht]
    simp only [Encoded.binders, List.isEmpty_iff.mp hnone, Term.binders, Term.not, Term.member, htuple,
      List.flatMap_nil, List.count_append, List.count_nil]
    omega
  · obtain ⟨rfl, rfl⟩ := returns_pure.mp he
    refine ⟨hr.of_count fun x => ?_, Term.plain_binary (by decide) hplain (Term.plain_of_binders rfl)⟩
    simp [Encoded.binders, Encoded.map, Term.equals, Term.binders]

theorem accounted_unaryExpr {op : Relational.UnaryOp} {arg : Expr} (h : Accounted encoding) :
    Accounted (unaryExpr v op arg encoding) := by
  unfold unaryExpr
  cases op with
  | not => exact accounted_negation h
  | closure => exact accounted_binaryRelation h (fun _ => rfl) Term.plain_closure
  | reflexiveClosure =>
    exact accounted_binaryRelation h (fun _ => List.append_nil _) fun ht =>
      Term.plain_binary (by decide) (Term.plain_closure ht) (Term.plain_of_binders rfl)
  | transpose => exact accounted_binaryRelation h (fun _ => rfl) Term.plain_transpose
  | toInt | toSigned => exact h
  | card => exact fun _ _ _ he => (not_returns_unsupported he).elim
  | no => exact accounted_emptiness h
  | some => exact accounted_witnessed h fun _ _ ht => by simp [Term.member, Term.binders, ht]
  | one =>
    exact accounted_witnessed h fun _ _ ht => by simp [Term.equals, Term.singleton, Term.binders, ht]
  | lone =>
    exact accounted_witnessed h fun _ _ ht => by simp [Term.subset, Term.singleton, Term.binders, ht]

theorem accounted_intValue {a : Expr} (h : Accounted encoding) :
    Accounted (intValue v a encoding) := by
  intro p e q he
  unfold intValue at he
  split at he
  · obtain ⟨rfl, rfl⟩ := returns_pure.mp he
    exact ⟨.refl _, Term.plain_of_binders rfl⟩
  · simp only [returns_bind, returns_sortOf] at he
    obtain ⟨set, r, hset, sort, _, ⟨_, rfl⟩, he⟩ := he
    obtain ⟨hr, _⟩ := accounted_relation h hset
    split at he
    · simp only [returns_bind, returns_pure] at he
      obtain ⟨x, _, hx, rfl, rfl⟩ := he
      refine ⟨(hr.trans (charging_freshVariable hx).1).of_count fun y => ?_, Term.plain_of_binders rfl⟩
      simp only [Encoded.binders, Witness.binders, Term.select, unaryIntValue, Term.equals,
        Term.singleton, Term.binders, Term.bindersAll, List.flatMap_append, List.flatMap_singleton,
        List.count_append, List.count_nil]
      omega
    · exact (not_returns_unsupported he).elim

theorem accounted_binaryExpr {op : Relational.BinaryOp} {a b : Expr}
    {conjuncts : List (Encoder Encoded)} (hl : Accounted lhs) (hr : Accounted rhs)
    (hconjuncts : ∀ e ∈ conjuncts, Accounted e) :
    Accounted (binaryExpr v op a b lhs rhs conjuncts) := by
  unfold binaryExpr
  cases op with
  | join => exact accounted_joinRelations hl hr
  | union | intersection | difference | product | equals | inside =>
    exact accounted_setOperation hl hr (by decide)
  | notEquals | notInside => exact accounted_negation (accounted_setOperation hl hr (by decide))
  | and => exact accounted_conjunction hconjuncts
  | or =>
    refine accounted_disjunction fun e he => ?_
    simp only [List.mem_cons, List.not_mem_nil, or_false] at he
    rcases he with rfl | rfl
    · exact hl
    · exact hr
  | implies | iff => exact accounted_connective hl hr (by decide)
  | lt | le | gt | ge =>
    exact accounted_both (accounted_intValue hl) (accounted_intValue hr) (by decide)

end Constructs

/-! ## Quantifiers -/

section Quantifiers

variable {v : Vocabulary} {p q : Progress}

/-- The guards of bound variables bind nothing themselves. -/
def Bound.Plain (b : Bound) : Prop := ∀ g ∈ b.guards, g.binders = []

theorem charges_bindNames {set : Term} (hset : set.binders = []) {names : List String} {scope : Scope}
    {b : Bound} (h : Returns (bindNames set names scope) p b q) :
    p.script.Charges q.script b.vars ∧ b.Plain := by
  induction names generalizing scope b p with
  | nil =>
    obtain ⟨rfl, rfl⟩ := returns_pure.mp h
    exact ⟨.refl _, List.forall_mem_nil _⟩
  | cons name names ih =>
    simp only [bindNames, returns_bind, returns_liftTerm, returns_pure] at h
    obtain ⟨x, _, hx, tuple, r, ⟨htuple, rfl⟩, rest, _, hrest, rfl, rfl⟩ := h
    obtain ⟨hq, hplain⟩ := ih hrest
    refine ⟨(charging_freshVariable hx).1.trans hq, List.forall_mem_cons.mpr ⟨?_, hplain⟩⟩
    rw [Term.member, Term.binders, Term.binders_mkTuple_ref htuple, hset, List.append_nil]

/-- What variables range over is a set, and so binds nothing. -/
theorem charges_boundSet {expr : String} {encoding : Encoder Encoded} (h : Accounted encoding)
    {t : Term} (ht : Returns (boundSet expr encoding) p t q) :
    p.script.Charges q.script [] ∧ t.binders = [] := by
  simp only [boundSet, returns_bind, returns_sortOf] at ht
  obtain ⟨set, r, hset, sort, _, ⟨hsort, rfl⟩, ht⟩ := ht
  obtain ⟨hr, hplain⟩ := accounted_relation h hset
  split at ht
  · rename_i hplainSet
    rw [Bool.and_eq_true, decide_eq_true_eq] at hplainSet
    obtain ⟨rfl, rfl⟩ := returns_pure.mp ht
    have hbinders := hplain _ _ (hplainSet.2 ▸ hsort)
    rw [Encoded.binders, hbinders, List.isEmpty_iff.mp hplainSet.1] at hr
    exact ⟨hr, hbinders⟩
  · exact (not_returns_unsupported ht).elim

theorem accounted_quantify {quantifier : Relational.Quantifier} {bind : Encoder Bound}
    {body : Scope → Encoder Encoded} (hbind : Charging bind Bound.vars Bound.Plain)
    (hbody : ∀ scope, Accounted (body scope)) : Accounted (quantify quantifier bind body) := by
  intro p e q he
  obtain ⟨xs, r, hxs, he⟩ := returns_bind.mp he
  obtain ⟨hr, hxs⟩ := hbind hxs
  have hguards := Term.bindersAll_eq_nil hxs
  cases quantifier with
  | all =>
    simp only [returns_bind, returns_liftTerm, returns_pure] at he
    obtain ⟨t, _, ht, u, _, ⟨hu, rfl⟩, rfl, rfl⟩ := he
    obtain ⟨hq, _⟩ := charging_formula (hbody xs.scope) ht
    refine ⟨(hr.trans hq).of_count fun x => ?_, Term.plain_quantify hu⟩
    rw [Term.eq_quantified hu]
    simp [Encoded.binders, Term.binders, Term.implies, Term.binders_conj, hguards]
  | no =>
    simp only [returns_bind, returns_liftTerm, returns_pure] at he
    obtain ⟨t, _, ht, u, _, ⟨hu, rfl⟩, rfl, rfl⟩ := he
    obtain ⟨hq, _⟩ := charging_formula (hbody xs.scope) ht
    refine ⟨(hr.trans hq).of_count fun x => ?_, Term.plain_quantify hu⟩
    rw [Term.eq_quantified hu]
    simp [Encoded.binders, Term.binders, Term.implies, Term.not, Term.binders_conj, hguards]
  | some =>
    simp only [returns_bind, returns_pure] at he
    obtain ⟨t, _, ht, rfl, rfl⟩ := he
    obtain ⟨hq, hplain⟩ := hbody xs.scope ht
    -- the variables are not bound in a term but owed as a witness
    refine ⟨(hr.trans hq).of_count fun x => ?_, hplain⟩
    simp only [Encoded.binders, Witness.binders, Term.binders_conj, hguards, List.flatMap_cons,
      List.count_append, List.count_nil]
    omega
  | one =>
    simp only [returns_bind, returns_liftTerm, returns_pure] at he
    obtain ⟨t, r₁, ht, ys, r₂, hys, again, _, hagain, u, _, ⟨hu, rfl⟩, rfl, rfl⟩ := he
    obtain ⟨hr₁, hplain⟩ := hbody xs.scope ht
    obtain ⟨hr₂, hys⟩ := hbind hys
    obtain ⟨hq, _⟩ := charging_formula (hbody ys.scope) hagain
    have hpair : ∀ a ∈ [t.term, u], a.PlainIfSet :=
      List.forall_mem_cons.mpr ⟨hplain, List.forall_mem_singleton.mpr (Term.plain_quantify hu)⟩
    refine ⟨((hr.trans hr₁).trans (hr₂.trans hq)).of_count fun x => ?_, plain_conjNontrivial hpair⟩
    rw [Term.eq_quantified hu]
    simp only [Encoded.binders, Witness.binders, binders_conjNontrivial, Term.binders_conj,
      Term.bindersAll_same, Term.bindersAll_append, hguards, Term.bindersAll_eq_nil hys,
      Term.bindersAll, Term.implies, Term.binders, List.flatMap_cons, List.count_append,
      List.count_nil]
    omega
  | lone =>
    simp only [returns_bind, returns_liftTerm, returns_pure] at he
    obtain ⟨t, r₁, ht, ys, r₂, hys, again, _, hagain, u, _, ⟨hu, rfl⟩, rfl, rfl⟩ := he
    obtain ⟨hr₁, _⟩ := charging_formula (hbody xs.scope) ht
    obtain ⟨hr₂, hys⟩ := hbind hys
    obtain ⟨hq, _⟩ := charging_formula (hbody ys.scope) hagain
    refine ⟨((hr.trans hr₁).trans (hr₂.trans hq)).of_count fun x => ?_, Term.plain_quantify hu⟩
    rw [Term.eq_quantified hu]
    simp only [Encoded.binders, binders_conjNontrivial, Term.binders_conj, Term.bindersAll_same,
      Term.bindersAll_append, hguards, Term.bindersAll_eq_nil hys, Term.bindersAll, Term.implies,
      Term.binders, List.flatMap_nil, List.count_append, List.count_nil]
    omega

end Quantifiers

/-! ## Cardinalities -/

section Cardinalities

variable {p q : Progress}

theorem charges_freshElements {sort : TermSort} {n : Nat} {ts : List Term}
    (h : Returns (freshElements sort n) p ts q) :
    p.script.Charges q.script [] ∧ ∀ t ∈ ts, t.binders = [] := by
  induction n generalizing p ts with
  | zero =>
    obtain ⟨rfl, rfl⟩ := returns_pure.mp h
    exact ⟨.refl _, nofun⟩
  | succ n ih =>
    simp only [freshElements, returns_bind, returns_pure] at h
    obtain ⟨x, r, hx, ts', _, hts, rfl, rfl⟩ := h
    obtain ⟨hq, hts⟩ := ih hts
    have hr : p.script.Charges r.script [] := by
      simp only [freshElement, drawName, returns_bind, returns_get, returns_modify,
        returns_pure] at hx
      obtain ⟨_, _, ⟨_, _, ⟨rfl, rfl⟩, _, _, rfl, rfl, rfl⟩, hx⟩ := hx
      have hdeclared := charges_declareConstant hx
      exact hdeclared
    exact ⟨hr.trans hq, List.forall_mem_cons.mpr ⟨rfl, hts⟩⟩

theorem charges_freshSet {sort : TermSort} {x : DeclId} (h : Returns (freshSet sort) p x q) :
    p.script.Charges q.script [] := by
  simp only [freshSet, drawName, returns_bind, returns_get, returns_modify, returns_pure] at h
  obtain ⟨_, _, ⟨_, _, ⟨rfl, rfl⟩, _, _, rfl, rfl, rfl⟩, h⟩ := h
  have hdeclared := charges_declareFunction h
  exact hdeclared

theorem charges_enumerate {n : Nat} {element set : TermSort} {pairwise : Bool} {t : Term}
    (h : Returns (enumerate n element set pairwise) p t q) :
    p.script.Charges q.script [] ∧ t.binders = [] := by
  obtain ⟨_, elements, r, r', helements, hdistinct, h⟩ := returns_enumerate.mp h
  obtain ⟨hr, hrefs⟩ := charges_freshElements helements
  have hr' : p.script.Charges r'.script [] := by
    rcases returns_distinguish hdistinct with rfl | ⟨d, hd, hassert⟩
    · exact hr
    · have hbinders : d.binders = [] := by
        rw [(Script.Reader.distinct_eq_ok.mp hd).2, Term.binders]
        exact Term.bindersAll_eq_nil hrefs
      exact charges_assertTerm (hbinders ▸ hr) hassert
  obtain ⟨x, r₁, union, hx, hunion, rfl, hassert⟩ := returns_gather.mp h
  have hbinders : (Term.equals (.ref x) union).binders = [] := by
    rw [Term.equals, Term.binders, Term.binders_unionAll hunion]
    refine Term.bindersAll_eq_nil fun u hu => ?_
    obtain ⟨w, hw, rfl⟩ := List.mem_map.mp hu
    exact hrefs w hw
  refine ⟨charges_assertTerm ?_ hassert, rfl⟩
  rw [hbinders]
  exact hr'.trans (charges_freshSet hx)

/-- A set that binds nothing may be left out of the bound on it. -/
theorem charges_encodeBound {set t : Term} {sort element : TermSort} {b : CountBound}
    (hset : set.binders = []) (h : Returns (encodeBound set sort element b) p t q) :
    p.script.Charges q.script [] ∧ t.binders = [] ∧ t.PlainIfSet := by
  suffices p.script.Charges q.script [] ∧ t.binders = [] from
    ⟨this.1, this.2, Term.plain_of_binders this.2⟩
  cases putsBound_of_returns h with
  | decided => exact ⟨.refl _, rfl⟩
  | empty => exact ⟨.refl _, by simp [Term.equals, Term.binders, hset]⟩
  | equal h =>
    obtain ⟨hq, hu⟩ := charges_enumerate h
    exact ⟨hq, by simp [Term.equals, Term.binders, hset, hu]⟩
  | below h | above h =>
    obtain ⟨hq, hu⟩ := charges_enumerate h
    exact ⟨hq, by simp [Term.subset, Term.binders, hset, hu]⟩

theorem accounted_countComparison {expr : String} {position : Position} {c : Comparison} {k : Int}
    {set : Encoder Encoded} (h : Accounted set) :
    Accounted (countComparison expr position c k set) := by
  intro p e q he
  obtain ⟨_, _, set, r, element, t, _, hset, hsort, ht, rfl⟩ := returns_countComparison.mp he
  obtain ⟨hr, hplain⟩ := h hset
  have hbinders := hplain _ _ hsort
  obtain ⟨hq, ht, hplain'⟩ := charges_encodeBound hbinders ht
  refine ⟨(hr.trans hq).of_count fun x => ?_, hplain'⟩
  simp [Encoded.binders, hbinders, ht]

theorem accounted_cardinality {expr : String} {position : Position} {c : Comparison}
    {lhs rhs : Option (Encoder Encoded)} {k l : Option Int}
    (hl : ∀ set, lhs = some set → Accounted set) (hr : ∀ set, rhs = some set → Accounted set) :
    Accounted (cardinality expr position c lhs rhs k l) := by
  unfold cardinality
  split
  · exact accounted_countComparison (hl _ rfl)
  split
  · exact accounted_countComparison (hr _ rfl)
  · exact fun _ _ _ he => (not_returns_unsupported he).elim

end Cardinalities

/-! ## Expressions -/

variable {v : Vocabulary}

mutual
theorem accounted_encode : ∀ (e : Expr) (scope : Scope) (position : Position),
    Accounted (encode v e scope position)
  | .sig id, scope, position => by
    rw [encode]
    exact accounted_plain binders_sigRelation
  | .field id, scope, position => by
    rw [encode]
    exact accounted_plain binders_fieldRelation
  | .builtin b, scope, position => by
    rw [encode]
    exact accounted_plain binders_builtinRelation
  | .var name, scope, position => by
    intro p r q h
    rw [encode] at h
    split at h
    · obtain ⟨rfl, rfl⟩ := returns_pure.mp h
      exact ⟨.refl _, Term.plain_of_binders rfl⟩
    · exact (not_returns_throw h).elim
  | .int n, scope, position => by
    intro p r q h
    simp only [encode, returns_bind, returns_liftTerm, returns_pure] at h
    obtain ⟨t, _, ⟨ht, rfl⟩, rfl, rfl⟩ := h
    have hbinders : t.singleton.binders = [] := by
      rw [Term.singleton, Term.binders]
      exact Term.binders_mkTuple ht
    refine ⟨?_, Term.plain_of_binders hbinders⟩
    rw [Encoded.binders, hbinders]
    exact .refl _
  | .unary op e, scope, position => by
    rw [encode]
    exact accounted_unaryExpr (accounted_encode e scope .nested)
  | .binary op a b, scope, position => by
    have hplain : Accounted (binaryExpr v op a b (encode v a scope .nested)
        (encode v b scope .nested) [encode v a scope position, encode v b scope position]) := by
      refine accounted_binaryExpr (accounted_encode a scope .nested)
        (accounted_encode b scope .nested) fun e he => ?_
      simp only [List.mem_cons, List.not_mem_nil, or_false] at he
      rcases he with rfl | rfl
      · exact accounted_encode a scope position
      · exact accounted_encode b scope position
    rw [encode]
    split
    · exact hplain
    · dsimp only
      split
      · exact accounted_cardinality (fun _ h => accounted_encodeCounted a scope h)
          fun _ h => accounted_encodeCounted b scope h
      · exact hplain
  | .list .and es, scope, position => by
    rw [encode]
    exact accounted_conjunction (accounted_encodeAll es scope position)
  | .list .or es, scope, position => by
    rw [encode]
    exact accounted_disjunction (accounted_encodeAll es scope .nested)
  | .quantified quantifier bs body, scope, position => by
    rw [encode]
    exact accounted_quantify (charging_encodeBindings bs scope) fun inner =>
      accounted_encode body inner .nested

theorem accounted_encodeCounted : ∀ (e : Expr) (scope : Scope) {set : Encoder Encoded},
    encodeCounted v e scope = some set → Accounted set
  | .unary op e, scope, set, h => by
    cases op with
    | toInt | toSigned =>
      rw [encodeCounted] at h
      exact accounted_encodeCounted e scope h
    | card =>
      rw [encodeCounted] at h
      obtain rfl := Option.some.inj h
      exact accounted_relation (accounted_encode e scope .nested)
    | _ => simp [encodeCounted] at h
  | .sig _, _, _, h | .field _, _, _, h | .builtin _, _, _, h | .var _, _, _, h | .int _, _, _, h
  | .binary .., _, _, h | .list .., _, _, h | .quantified .., _, _, h => by
    simp [encodeCounted] at h

theorem accounted_encodeAll : ∀ (es : List Expr) (scope : Scope) (position : Position),
    ∀ m ∈ encodeAll v es scope position, Accounted m
  | [], scope, position, m, hm => by simp [encodeAll] at hm
  | e :: es, scope, position, m, hm => by
    rw [encodeAll, List.mem_cons] at hm
    rcases hm with rfl | hm
    · exact accounted_encode e scope position
    · exact accounted_encodeAll es scope position m hm

theorem charging_encodeBindings : ∀ (bs : List (Binding Expr)) (scope : Scope),
    Charging (encodeBindings v bs scope) Bound.vars Bound.Plain
  | [], scope => by
    intro p b q h
    rw [encodeBindings] at h
    obtain ⟨rfl, rfl⟩ := returns_pure.mp h
    exact ⟨.refl _, nofun⟩
  | b :: bs, scope => by
    intro p r q h
    simp only [encodeBindings, returns_bind, returns_pure] at h
    obtain ⟨set, r₁, hset, first, r₂, hfirst, rest, _, hrest, rfl, rfl⟩ := h
    obtain ⟨hr₁, hset⟩ := charges_boundSet (accounted_encode b.bound scope .nested) hset
    obtain ⟨hr₂, hfirst⟩ := charges_bindNames hset hfirst
    obtain ⟨hq, hrest⟩ := charging_encodeBindings bs first.scope hrest
    exact ⟨hr₁.trans (hr₂.trans hq), List.forall_mem_append.mpr ⟨hfirst, hrest⟩⟩
end

end Encoding

end TupleLogic
