import Mathlib.Data.List.Forall2
import TupleLogic.Encoding.Compile
import TupleLogic.Proofs.Edits

/-! Successful runs of an encoder. `Returns m p a q` says that `m`, started
from `p`, gives `a` and leaves `q`. A run of a sequence comes apart into runs
of its steps, so that proofs never look inside the monad. -/

namespace TupleLogic.Encoding

variable {α β : Type}

def Returns (m : Encoder α) (p : Progress) (a : α) (q : Progress) : Prop :=
  m.run.run p = (.ok a, q)

section Runs

variable {p q : Progress}

theorem returns_pure {a b : α} : Returns (pure a) p b q ↔ b = a ∧ q = p := by
  change (Except.ok a, p) = (Except.ok b, q) ↔ _
  simp only [Prod.mk.injEq, Except.ok.injEq]
  exact and_congr eq_comm eq_comm

theorem run_bind (m : Encoder α) (f : α → Encoder β) (p : Progress) :
    (m >>= f).run.run p = (ExceptT.bindCont f (m.run.run p).1).run (m.run.run p).2 := rfl

theorem run_bind_ok {m : Encoder α} {a : α} (h : m.run.run p = (.ok a, q)) (f : α → Encoder β) :
    (m >>= f).run.run p = (f a).run.run q := by
  rw [run_bind, h]
  rfl

theorem run_bind_error {m : Encoder α} {e : EncodeError} (h : m.run.run p = (.error e, q))
    (f : α → Encoder β) : (m >>= f).run.run p = (.error e, q) := by
  rw [run_bind, h]
  rfl

theorem returns_bind {m : Encoder α} {f : α → Encoder β} {b : β} :
    Returns (m >>= f) p b q ↔ ∃ a r, Returns m p a r ∧ Returns (f a) r b q := by
  constructor
  · intro h
    unfold Returns at h
    cases hrun : m.run.run p with
    | mk result r =>
      cases result with
      | error e =>
        rw [run_bind_error hrun] at h
        cases h
      | ok a =>
        rw [run_bind_ok hrun] at h
        exact ⟨a, r, hrun, h⟩
  · rintro ⟨a, r, h, h'⟩
    exact (run_bind_ok h f).trans h'

theorem returns_of_isOk {m : Encoder α} (h : (m.run.run p).1.isOk = true) :
    ∃ a q, Returns m p a q := by
  cases hrun : m.run.run p with
  | mk result q =>
    cases result with
    | error e =>
      rw [hrun] at h
      cases h
    | ok a => exact ⟨a, q, hrun⟩

theorem run_sortOf (t : Term) (p : Progress) :
    (Encoder.sortOf t).run.run p = ((p.script.sortOf t).mapError .term, p) := by
  change (Encoder.liftTerm (p.script.sortOf t)).run.run p = _
  cases p.script.sortOf t <;> rfl

theorem run_edit (work : Script.Edit α) (p : Progress) : (Encoder.edit work).run.run p =
    ((work.run.run p.script).1.mapError .term, ⟨(work.run.run p.script).2, p.names⟩) := by
  change (Encoder.liftTerm (work.run.run p.script).1).run.run _ = _
  cases (work.run.run p.script).1 <;> rfl

theorem run_edit_ok {work : Script.Edit α} {a : α} {s : Script}
    (h : work.outcome p.script = .ok (a, s)) :
    (Encoder.edit work).run.run p = (.ok a, ⟨s, p.names⟩) := by
  rw [run_edit, Script.Edit.outcome_eq_ok.mp h]
  rfl

/-- Refused work on the script leaves the encoding where it was. -/
theorem run_edit_error {work : Script.Edit α} (hwork : work.Traceless) {e : TermError}
    (h : work.outcome p.script = .error e) :
    (Encoder.edit work).run.run p = (.error (.term e), p) := by
  rw [run_edit, hwork.run_error h]
  rfl

theorem not_returns_throw {e : EncodeError} {a : α} : ¬ Returns (throw e) p a q := by
  intro h
  cases h

theorem not_returns_unsupported {cause : Unsupported} {a : α} :
    ¬ Returns (Encoder.unsupported cause) p a q := not_returns_throw

theorem returns_liftTerm {r : Except TermError α} {a : α} :
    Returns (Encoder.liftTerm r) p a q ↔ r = .ok a ∧ q = p := by
  cases r with
  | error e => simp [Encoder.liftTerm, not_returns_throw]
  | ok b =>
    rw [Encoder.liftTerm, returns_pure, Except.ok.injEq]
    exact and_congr_left' eq_comm

theorem returns_get {a : Progress} : Returns get p a q ↔ a = p ∧ q = p := by
  change (Except.ok p, p) = (Except.ok a, q) ↔ _
  simp only [Prod.mk.injEq, Except.ok.injEq]
  exact and_congr eq_comm eq_comm

theorem returns_modify {f : Progress → Progress} {u : PUnit} :
    Returns (modify f) p u q ↔ q = f p := by
  change (Except.ok PUnit.unit, f p) = (Except.ok u, q) ↔ _
  simp only [Prod.mk.injEq, true_and]
  exact eq_comm

theorem returns_mapM_nil {f : α → Encoder β} {bs : List β} :
    Returns ([].mapM f) p bs q ↔ bs = [] ∧ q = p := by
  rw [List.mapM_nil, returns_pure]

theorem returns_mapM_cons {f : α → Encoder β} {x : α} {xs : List α} {bs : List β} :
    Returns ((x :: xs).mapM f) p bs q ↔
      ∃ b r bs', Returns (f x) p b r ∧ Returns (xs.mapM f) r bs' q ∧ bs = b :: bs' := by
  rw [List.mapM_cons]
  simp only [returns_bind, returns_pure]
  constructor
  · rintro ⟨b, r, hb, bs', r', hbs, rfl, rfl⟩
    exact ⟨b, r, bs', hb, hbs, rfl⟩
  · rintro ⟨b, r, bs', hb, hbs, rfl⟩
    exact ⟨b, r, hb, bs', q, hbs, rfl, rfl⟩

theorem returns_forM_cons {f : α → Encoder PUnit} {x : α} {xs : List α} {u : PUnit} :
    Returns ((x :: xs).forM f) p u q ↔ ∃ r, Returns (f x) p ⟨⟩ r ∧ Returns (xs.forM f) r ⟨⟩ q := by
  change Returns (f x >>= fun _ => xs.forM f) p u q ↔ _
  rw [returns_bind]
  exact ⟨fun ⟨_, r, h, h'⟩ => ⟨r, h, h'⟩, fun ⟨r, h, h'⟩ => ⟨⟨⟩, r, h, h'⟩⟩

theorem returns_forM_nil {f : α → Encoder PUnit} {u : PUnit} :
    Returns (([] : List α).forM f) p u q ↔ q = p := by
  change Returns (pure ⟨⟩) p u q ↔ _
  rw [returns_pure]
  exact and_iff_right rfl

theorem returns_sortOf {t : Term} {sort : TermSort} :
    Returns (Encoder.sortOf t) p sort q ↔ p.script.sortOf t = .ok sort ∧ q = p := by
  simp only [Encoder.sortOf, returns_bind, returns_get, returns_liftTerm]
  constructor
  · rintro ⟨_, _, ⟨rfl, rfl⟩, h⟩
    exact h
  · intro h
    exact ⟨_, _, ⟨rfl, rfl⟩, h⟩

/-- The progress after a bound variable of the given sort is made. -/
def Progress.withVariable (p : Progress) (sort : TermSort) : Progress :=
  ⟨(p.script.addVariable p.names.freshVariable.1 sort).2, p.names.freshVariable.2⟩

theorem returns_freshVariable {sort : TermSort} {x : DeclId} :
    Returns (Encoder.freshVariable sort) p x q ↔
      x = p.script.nextId ∧ q = p.withVariable sort := by
  simp only [Encoder.freshVariable, Encoder.drawName, returns_bind, returns_get, returns_modify,
    returns_pure]
  constructor
  · rintro ⟨_, _, ⟨_, _, ⟨rfl, rfl⟩, _, _, rfl, rfl, rfl⟩, _, _, ⟨rfl, rfl⟩, _, _, rfl, rfl, rfl⟩
    exact ⟨rfl, rfl⟩
  · rintro ⟨rfl, rfl⟩
    exact ⟨_, _, ⟨_, _, ⟨rfl, rfl⟩, ⟨⟩, _, rfl, rfl, rfl⟩, _, _, ⟨rfl, rfl⟩, ⟨⟩, _, rfl, rfl, rfl⟩

theorem returns_assertTerm {name : Option String} {t : Term} {u : PUnit} :
    Returns (Encoder.assertTerm name t) p u q ↔
      q = { p with script := p.script.addAssertion name t } := returns_modify

theorem returns_edit {work : Script.Edit α} {a : α} :
    Returns (Encoder.edit work) p a q ↔
      ∃ s, work.outcome p.script = .ok (a, s) ∧ q = { p with script := s } := by
  simp only [Script.Edit.outcome_eq_ok]
  constructor
  · intro h
    rw [Returns, run_edit] at h
    obtain ⟨hresult, rfl⟩ := Prod.mk.inj h
    refine ⟨_, Prod.ext ?_ rfl, rfl⟩
    cases hrun : (work.run.run p.script).1 with
    | error e =>
      rw [hrun] at hresult
      cases hresult
    | ok b =>
      rw [hrun] at hresult
      exact congrArg Except.ok (Except.ok.inj hresult)
  · rintro ⟨s, h, rfl⟩
    exact run_edit_ok (Script.Edit.outcome_eq_ok.mpr h)

theorem returns_formula {encoding : Encoder Encoded} {t : Term} :
    Returns (formula encoding) p t q ↔ ∃ e, Returns encoding p e q ∧ e.close = .ok t := by
  simp only [formula, returns_bind, returns_liftTerm]
  constructor
  · rintro ⟨e, _, h, hc, rfl⟩
    exact ⟨e, h, hc⟩
  · rintro ⟨e, h, hc⟩
    exact ⟨e, q, h, hc, rfl⟩

theorem returns_relation {encoding : Encoder Encoded} {e : Encoded} :
    Returns (relation encoding) p e q ↔ ∃ e' r t, Returns encoding p e' r ∧
      Returns (promote e'.term) r t q ∧ e = { e' with term := t } := by
  simp only [relation, returns_bind, returns_pure]
  constructor
  · rintro ⟨e', r, h, t, _, ht, rfl, rfl⟩
    exact ⟨e', r, t, h, ht, rfl⟩
  · rintro ⟨e', r, t, h, ht, rfl⟩
    exact ⟨e', r, h, t, q, ht, rfl, rfl⟩

/-! ## Counted elements -/

/-- The assertion that constants are distinct, where there are two. -/
def distinguish (pairwise : Bool) (elements : List Term) : Encoder Unit := do
  if pairwise && elements.length > 1 then
    Encoder.assertTerm none (← Encoder.liftTerm (Term.distinct elements))

/-- A fresh set that holds the given elements and no others. -/
def gather (set : TermSort) (elements : List Term) : Encoder Term := do
  let aux ← Encoder.freshSet set
  let union ← Encoder.liftTerm (Term.unionAll (elements.map Term.singleton))
  Encoder.assertTerm none (.equals (.ref aux) union)
  return .ref aux

theorem enumerate_eq (count : Nat) (element set : TermSort) (pairwise : Bool) :
    enumerate count element set pairwise =
      if maxEnumerated < count then Encoder.unsupported (.countTooLarge count)
      else freshElements element count >>= fun elements =>
        distinguish pairwise elements >>= fun _ => gather set elements := by
  unfold enumerate distinguish gather
  split
  · rfl
  · refine bind_congr fun elements => ?_
    split <;> simp

theorem returns_enumerate {count : Nat} {element set : TermSort} {pairwise : Bool} {t : Term} :
    Returns (enumerate count element set pairwise) p t q ↔
      count ≤ maxEnumerated ∧ ∃ elements r s, Returns (freshElements element count) p elements r ∧
        Returns (distinguish pairwise elements) r ⟨⟩ s ∧ Returns (gather set elements) s t q := by
  rw [enumerate_eq]
  split
  · rename_i h
    exact iff_of_false not_returns_unsupported fun h' => Nat.not_lt.mpr h'.1 h
  · rename_i h
    simp only [returns_bind]
    constructor
    · rintro ⟨elements, r, helements, _, s, hdistinct, ht⟩
      exact ⟨Nat.not_lt.mp h, elements, r, s, helements, hdistinct, ht⟩
    · rintro ⟨_, elements, r, s, helements, hdistinct, ht⟩
      exact ⟨elements, r, helements, ⟨⟩, s, hdistinct, ht⟩

theorem returns_gather {elements : List Term} {set : TermSort} {t : Term} :
    Returns (gather set elements) p t q ↔ ∃ x r union, Returns (Encoder.freshSet set) p x r ∧
      Term.unionAll (elements.map Term.singleton) = .ok union ∧ t = .ref x ∧
      Returns (Encoder.assertTerm none (.equals (.ref x) union)) r ⟨⟩ q := by
  simp only [gather, returns_bind, returns_liftTerm, returns_pure]
  constructor
  · rintro ⟨x, _, hx, union, r, ⟨hunion, rfl⟩, _, _, hassert, rfl, rfl⟩
    exact ⟨x, r, union, hx, hunion, rfl, hassert⟩
  · rintro ⟨x, r, union, hx, hunion, rfl, hassert⟩
    exact ⟨x, r, hx, union, r, ⟨hunion, rfl⟩, ⟨⟩, q, hassert, rfl, rfl⟩

theorem returns_distinguish {elements : List Term} {pairwise : Bool} {u : Unit}
    (h : Returns (distinguish pairwise elements) p u q) :
    q = p ∨ ∃ d, Term.distinct elements = .ok d ∧ Returns (Encoder.assertTerm none d) p ⟨⟩ q := by
  unfold distinguish at h
  split at h
  · simp only [returns_bind, returns_liftTerm] at h
    obtain ⟨d, _, ⟨hd, rfl⟩, h⟩ := h
    exact .inr ⟨d, hd, h⟩
  · exact .inl (returns_pure.mp h).2

/-- How a bound on the number of elements of `set` is put: decided outright, or
said of the empty set or of a set that is enumerated for it. -/
inductive PutsBound (set : Term) (sort element : TermSort) (p : Progress) :
    Term → Progress → Prop where
  | decided {b : Bool} : PutsBound set sort element p (.bool b) p
  | empty : PutsBound set sort element p (.equals set (.emptySet sort)) p
  | equal {count : Nat} {pairwise : Bool} {u : Term} {q : Progress} :
      Returns (enumerate count element sort pairwise) p u q →
      PutsBound set sort element p (.equals set u) q
  | below {count : Nat} {pairwise : Bool} {u : Term} {q : Progress} :
      Returns (enumerate count element sort pairwise) p u q →
      PutsBound set sort element p (.subset set u) q
  | above {count : Nat} {pairwise : Bool} {u : Term} {q : Progress} :
      Returns (enumerate count element sort pairwise) p u q →
      PutsBound set sort element p (.subset u set) q

theorem putsBound_of_returns {set t : Term} {sort element : TermSort} {bound : CountBound}
    (h : Returns (encodeBound set sort element bound) p t q) : PutsBound set sort element p t q := by
  cases bound with
  | exactly k =>
    simp only [encodeBound] at h
    split at h
    · obtain ⟨rfl, rfl⟩ := returns_pure.mp h
      exact .decided
    split at h
    · obtain ⟨rfl, rfl⟩ := returns_pure.mp h
      exact .empty
    · simp only [returns_bind, returns_pure] at h
      obtain ⟨u, _, hu, rfl, rfl⟩ := h
      exact .equal hu
  | atMost k =>
    simp only [encodeBound] at h
    split at h
    · obtain ⟨rfl, rfl⟩ := returns_pure.mp h
      exact .decided
    split at h
    · obtain ⟨rfl, rfl⟩ := returns_pure.mp h
      exact .empty
    · simp only [returns_bind, returns_pure] at h
      obtain ⟨u, _, hu, rfl, rfl⟩ := h
      exact .below hu
  | atLeast k =>
    simp only [encodeBound] at h
    split at h
    · obtain ⟨rfl, rfl⟩ := returns_pure.mp h
      exact .decided
    · simp only [returns_bind, returns_pure] at h
      obtain ⟨u, _, hu, rfl, rfl⟩ := h
      exact .above hu
  | beyond =>
    obtain ⟨rfl, rfl⟩ := returns_pure.mp h
    exact .decided

/-- A cardinality is compared at the top of a fact only, and where there is
something to bound. -/
theorem returns_countComparison {expr : String} {position : Position} {c : Relational.Comparison}
    {k : Int} {set : Encoder Encoded} {e : Encoded} :
    Returns (countComparison expr position c k set) p e q ↔
      position = .top ∧ ∃ bound s r element t, CountBound.ofComparison? c k = some bound ∧
        Returns set p s r ∧ r.script.sortOf s.term = .ok (.set element) ∧
        Returns (encodeBound s.term (.set element) element bound) r t q ∧
        e = { s with term := t } := by
  unfold countComparison
  cases hbound : CountBound.ofComparison? c k with
  | none => simp [not_returns_unsupported]
  | some bound =>
    by_cases htop : position = .top
    · simp only [htop, if_true, true_and, returns_bind, returns_sortOf, Option.some.injEq]
      constructor
      · rintro ⟨s, _, hs, sort, r, ⟨hsort, rfl⟩, h⟩
        cases sort with
        | set element =>
          simp only [TermSort.element?, returns_bind, returns_pure] at h
          obtain ⟨t, _, ht, rfl, rfl⟩ := h
          exact ⟨bound, s, r, element, t, rfl, hs, hsort, ht, rfl⟩
        | _ => exact (not_returns_unsupported h).elim
      · rintro ⟨_, s, r, element, t, rfl, hs, hsort, ht, rfl⟩
        refine ⟨s, r, hs, _, r, ⟨hsort, rfl⟩, ?_⟩
        simp only [TermSort.element?, returns_bind, returns_pure]
        exact ⟨t, q, ht, rfl, rfl⟩
    · simp [htop, not_returns_unsupported]

end Runs

/-- A script that a model is encoded to is what a run leaves. -/
theorem returns_of_encode {m : Relational.Model} {settings : Settings} {names names' : NameSupply}
    {s : Script} (h : m.encode settings names = (.ok s, names')) :
    ∃ u, Returns (encodeModel settings.fieldTyping m)
      ⟨.empty, if settings.resetNames then .reset else names⟩ u ⟨s, names'⟩ := by
  simp only [Relational.Model.encode] at h
  generalize hrun : (encodeModel settings.fieldTyping m).run.run _ = result at h
  obtain ⟨_ | u, q⟩ := result
  · cases h
  · cases h
    exact ⟨u, hrun⟩

theorem encode_of_isOk {m : Relational.Model} {names : NameSupply}
    (h : (m.encode {} names).1.isOk) :
    ∃ s names', m.encode {} names = (.ok s, names') := by
  generalize m.encode {} names = result at h
  obtain ⟨_ | s, names'⟩ := result
  · cases h
  · exact ⟨s, names', rfl⟩

end TupleLogic.Encoding
