import TupleLogic.Proofs.Binders
import TupleLogic.Proofs.InferenceFailures
import TupleLogic.Proofs.ModelSteps

/-! Encodings stay in bounds. A reference that leads nowhere and a column that is
not there are errors of their own, `unknownDeclaration` and `missingColumn`. No
model makes them arise, however ill-formed it is: the terms whose sorts are asked
for mention declarations that exist, and every sort has columns where it is cut. -/

namespace TupleLogic

/-! ## Sorts of terms over existing declarations -/

namespace Term

variable {n : Nat} {t : Term}

theorem Over.decls (h : t.Over n) : ∀ id ∈ t.decls, id.index < n := by
  induction h with
  | ref hid => exact List.forall_mem_singleton.mpr hid
  | int | bool | emptySet _ | fullSet _ => exact List.forall_mem_nil _
  | unary _ ih => exact ih
  | binary _ _ iha ihb => exact List.forall_mem_append.mpr ⟨iha, ihb⟩
  | nary _ ih =>
    intro id hid
    rw [Term.decls, declsList_eq] at hid
    obtain ⟨a, ha, hid⟩ := List.mem_flatMap.mp hid
    exact ih a ha id hid
  | quantified hvars _ ih => exact List.forall_mem_append.mpr ⟨hvars, ih⟩
  | @value w a _ _ ih =>
    have hdecls : (w.valueOf a).decls = a.decls := by
      simp [Encoding.IntSort.valueOf, Term.decls, declsList]
    rw [hdecls]
    exact ih

end Term

/-- Declarations have sorts that every encoding has, and names and assertions
lead to declarations that exist. -/
structure Script.Intact (s : Script) : Prop where
  arena : ∀ {i : Nat} {d : Declaration}, s.arena[i]? = some d → d.sort.encodable = true
  index : ∀ entry ∈ s.index, entry.2.index < s.arena.size
  assertions : ∀ a ∈ s.assertions, a.formula.Over s.arena.size

namespace Script.Intact

open Encoding

variable {s : Script} {t : Term}

theorem lookup_lt (hs : s.Intact) {name : String} {id : DeclId} (h : s.lookup name = some id) :
    id.index < s.arena.size := by
  obtain ⟨_, _, hindex, _⟩ := List.lookup_eq_some_iff.mp h
  exact hs.index (name, id) (by simp [hindex])

theorem encodable_sortOf (hs : s.Intact) {n : Nat} (ht : t.Over n) {sort : TermSort}
    (h : s.sortOf t = .ok sort) : sort.encodable = true := by
  induction ht generalizing sort with
  | ref _ =>
    rw [Script.sortOf] at h
    exact encodable_of_decl hs.arena h
  | int | bool | quantified _ _ _ =>
    rw [Script.sortOf] at h
    obtain rfl := Except.ok.inj h
    rfl
  | emptySet hsort | fullSet hsort =>
    rw [Script.sortOf] at h
    split at h
    · obtain rfl := Except.ok.inj h
      exact hsort
    · cases h
  | unary _ ih => exact encodable_of_unary ih h
  | @binary op a b _ _ iha ihb =>
    by_cases hop : op = .select
    · subst hop
      cases a with
      | int column =>
        rw [Script.sortOf] at h
        obtain ⟨e, he, h⟩ := bind_eq_ok.mp h
        exact encodable_selected (ihb he) h
      | _ =>
        simp only [Script.sortOf] at h
        cases h
    · exact encodable_of_binary hop iha ihb h
  | nary _ ih => exact encodable_of_nary (fun a ha _ h => ih a ha h) h
  | value _ _ _ =>
    rw [IntSort.valueOf, Script.sortOf] at h
    split at h
    · exact encodable_of_decl hs.arena h
    · cases h

theorem over_consulted {n : Nat} (ht : t.Over n) {a : Term} (ha : a ∈ t.consulted) : a.Over n := by
  cases ht with
  | ref _ | int | bool | emptySet _ | fullSet _ | quantified _ _ | value _ _ => cases ha
  | @unary op b hb =>
    obtain rfl := Term.mem_consulted_unary ha
    exact hb
  | @binary op b c hb hc =>
    obtain rfl | rfl := Term.mem_consulted_binary ha
    · exact hb
    · exact hc
  | @nary op args hargs => exact hargs a (Term.mem_consulted_nary ha)

/-- The joins of an encoding find their columns. -/
theorem not_stuck (hs : s.Intact) (ht : t.Over s.arena.size) : ¬ s.Stuck t := by
  intro h
  induction h with
  | join ha hb hside =>
    cases ht with
    | binary hoa hob =>
      rcases hside with ⟨hnil, _⟩ | ⟨hnil, _⟩
      · exact (encodable_tuple.mp (encodable_set.mp (hs.encodable_sortOf hoa ha)).2).1 hnil
      · exact (encodable_tuple.mp (encodable_set.mp (hs.encodable_sortOf hob hb)).2).1 hnil
  | operand hsplit _ _ ih => exact ih (over_consulted ht (by simp [hsplit]))

/-- Asking for the sort of a term over the declarations leads to no declaration
and to no column that does not exist. -/
theorem careful_sortOf (hs : s.Intact) (ht : t.Over s.arena.size) : Careful (s.sortOf t) :=
  Script.careful_of_not_stuck hs.lookup_lt ht.decls (hs.not_stuck ht)

theorem add (hs : s.Intact) {d : Declaration} (hd : d.sort.encodable = true) : (s.add d).Intact where
  arena {i e} he := by
    rw [show (s.add d).arena = s.arena.push d from rfl, Array.getElem?_push] at he
    split at he
    · obtain rfl := Option.some.inj he
      exact hd
    · exact hs.arena he
  index := by
    rw [show (s.add d).arena.size = s.arena.size + 1 from Array.size_push d]
    refine List.forall_mem_cons.mpr ⟨Nat.lt_succ_self _, fun entry he => ?_⟩
    exact Nat.lt_succ_of_lt (hs.index entry he)
  assertions a ha := by
    rw [show (s.add d).arena.size = s.arena.size + 1 from Array.size_push d]
    exact (hs.assertions a ha).mono (Nat.le_succ _)

theorem addVariable (hs : s.Intact) {name : String} {sort : TermSort}
    (hsort : sort.encodable = true) : (s.addVariable name sort).2.Intact where
  arena {i e} he := by
    rw [show (s.addVariable name sort).2.arena = s.arena.push (.variable name sort) from rfl,
      Array.getElem?_push] at he
    split at he
    · obtain rfl := Option.some.inj he
      exact hsort
    · exact hs.arena he
  index entry he := by
    rw [show (s.addVariable name sort).2.arena.size = s.arena.size + 1 from Array.size_push _]
    exact Nat.lt_succ_of_lt (hs.index entry he)
  assertions a ha := by
    rw [show (s.addVariable name sort).2.arena.size = s.arena.size + 1 from Array.size_push _]
    exact (hs.assertions a ha).mono (Nat.le_succ _)

theorem addAssertion (hs : s.Intact) {name : Option String} (ht : t.Over s.arena.size) :
    (s.addAssertion name t).Intact where
  arena := hs.arena
  index := hs.index
  assertions := List.forall_mem_append.mpr ⟨hs.assertions, List.forall_mem_singleton.mpr ht⟩

end Script.Intact

/-! ## Runs -/

namespace Encoding

open Relational Encoder

/-- The errors that the encoding of a model may end with. -/
inductive Expected (free : String → Prop) : EncodeError → Prop
  | unsupported (cause : Unsupported) : Expected free (.unsupported cause)
  | unbound {name : String} : free name → Expected free (.unbound name)
  | malformed (cause : Malformed) : Expected free (.term (.malformed cause))

/-- What a run does where `n` declarations exist. -/
structure Stays {α : Type} (free : String → Prop) (n : Nat) (post : Nat → α → Prop)
    (run : Except EncodeError α × Progress) : Prop where
  intact : run.2.script.Intact
  size : n ≤ run.2.script.arena.size
  result : ∀ a, run.1 = .ok a → ∃ k, n ≤ k ∧ k ≤ run.2.script.arena.size ∧ post k a
  error : ∀ e, run.1 = .error e → Expected free e

section Runs

variable {α : Type} {given : List String} {free : String → Prop} {n : Nat}
  {post : Nat → α → Prop} {p : Progress}

theorem Stays.returns {a : α} (hp : p.script.Intact) (hn : n ≤ p.script.arena.size)
    (ha : post p.script.arena.size a) : Stays free n post (.ok a, p) where
  intact := hp
  size := hn
  result b hb := by
    obtain rfl := Except.ok.inj hb
    exact ⟨p.script.arena.size, hn, Nat.le_refl _, ha⟩
  error e he := by cases he

theorem Stays.fails {e : EncodeError} (hp : p.script.Intact) (hn : n ≤ p.script.arena.size)
    (he : Expected free e) : Stays free n post (.error e, p) where
  intact := hp
  size := hn
  result a ha := by cases ha
  error e' he' := by
    obtain rfl := Except.error.inj he'
    exact he

theorem stays_add (hp : p.script.Intact) (hn : n ≤ p.script.arena.size) {d : Declaration}
    (hd : d.sort.encodable = true) (names : NameSupply) :
    Stays free n (fun k x => x.index < k) (.ok p.script.nextId, ⟨p.script.add d, names⟩) := by
  have hsize : p.script.arena.size < (p.script.add d).arena.size := by
    rw [show (p.script.add d).arena.size = _ from Array.size_push _]
    exact Nat.lt_succ_self _
  exact .returns (hp.add hd) (hn.trans hsize.le) hsize

/-- A run of steps leads nowhere where nothing is. -/
theorem Stepwise.stays {m : Encoder α} (h : Stepwise given free n m post)
    (hp : p.script.Intact) (hn : n ≤ p.script.arena.size) : Stays free n post (m.run.run p) := by
  induction h generalizing p with
  | pure ha => exact .returns hp hn (ha _ hn)
  | @bind _ _ _ m f _ _ _ _ ihm ihf =>
    obtain ⟨hq, hsize, hresult, herror⟩ := ihm hp hn
    cases hrun : m.run.run p with
    | mk result q =>
      rw [hrun] at hq hsize hresult herror
      cases result with
      | error e =>
        rw [run_bind_error hrun]
        exact .fails hq hsize (herror e rfl)
      | ok a =>
        -- what follows runs from the progress that the first part left, over what that part made
        obtain ⟨k, hk, hkq, ha⟩ := hresult a rfl
        obtain ⟨hr, hsize', hresult', herror'⟩ := ihf k a hk ha hq hkq
        rw [run_bind_ok hrun]
        refine ⟨hr, hk.trans hsize', fun b hb => ?_, herror'⟩
        obtain ⟨j, hj, hjr, hb⟩ := hresult' b hb
        exact ⟨j, hk.trans hj, hjr, hb⟩
  | weaken _ hpost ih =>
    obtain ⟨hq, hsize, hresult, herror⟩ := ih hp hn
    refine ⟨hq, hsize, fun a ha => ?_, herror⟩
    obtain ⟨k, hk, hkq, ha⟩ := hresult a ha
    exact ⟨k, hk, hkq, hpost k a hk ha⟩
  | unsupported => exact .fails hp hn (.unsupported _)
  | unbound hname => exact .fails hp hn (.unbound hname)
  | malformed => exact .fails hp hn (.malformed _)
  | @sortOf _ t ht =>
    have ht := ht.mono hn
    rw [run_sortOf]
    cases hsort : p.script.sortOf t with
    | error e =>
      obtain ⟨cause, rfl⟩ := hp.careful_sortOf ht e hsort
      exact .fails hp hn (.malformed cause)
    | ok sort => exact .returns hp hn (hp.encodable_sortOf ht hsort)
  | @declareRelation _ name _ _ hsort =>
    cases hname : p.script.lookup name with
    | none =>
      rw [run_declareRelation hname]
      refine stays_add hp hn ?_ p.names
      exact hsort
    | some id =>
      rw [run_declareRelation_taken hname]
      exact .fails hp hn (.malformed _)
  | @freshVariable _ sort hsort =>
    have hsize : p.script.arena.size < (p.withVariable sort).script.arena.size := by
      rw [show (p.withVariable sort).script.arena.size = _ from Array.size_push _]
      exact Nat.lt_succ_self _
    rw [run_freshVariable]
    exact .returns (hp.addVariable hsort) (hn.trans hsize.le) hsize
  | freshElement hsort =>
    cases hname : p.script.lookup p.names.freshElement.1 with
    | none =>
      rw [run_freshElement hname]
      refine stays_add hp hn ?_ _
      exact hsort
    | some id =>
      rw [run_freshElement_taken hname]
      exact .fails hp hn (.malformed _)
  | freshSet hsort =>
    cases hname : p.script.lookup p.names.freshSet.1 with
    | none =>
      rw [run_freshSet hname]
      refine stays_add hp hn ?_ _
      exact hsort
    | some id =>
      rw [run_freshSet_taken hname]
      exact .fails hp hn (.malformed _)
  | assertTerm ht =>
    rw [run_assertTerm]
    exact .returns (hp.addAssertion (ht.mono hn)) hn trivial

end Runs

theorem intact_builtinScript : builtinScript.Intact where
  arena {i d} hd := by
    have hall : ∀ d ∈ builtinScript.arena, d.sort.encodable = true := by decide
    exact hall d (Array.mem_of_getElem? hd)
  index := by decide
  assertions := by
    have href {i : Nat} (hi : i < 8) : (Term.ref ⟨i⟩).Over builtinScript.arena.size := .ref hi
    refine List.forall_mem_cons.mpr ⟨?_, List.forall_mem_cons.mpr ⟨?_, ?_⟩⟩
    · exact .binary (href (by decide)) (.emptySet encodable_unaryRelation)
    · exact .binary (href (by decide)) (.fullSet encodable_unaryRelation)
    · refine List.forall_mem_singleton.mpr (.quantified (by decide) (.binary (.binary ?_ ?_) ?_))
      · exact .nary (List.forall_mem_cons.mpr ⟨href (by decide), List.forall_mem_singleton.mpr
          (href (by decide))⟩)
      · exact href (by decide)
      · exact .binary (href (by decide)) (href (by decide))

end Encoding

/-! ## Scripts in bounds -/

namespace Term

theorem subtermsAll_eq (ts : List Term) : subtermsAll ts = ts.flatMap subterms := by
  induction ts with
  | nil => rw [subtermsAll, List.flatMap_nil]
  | cons t ts ih => rw [subtermsAll, ih, List.flatMap_cons]

variable {n : Nat} {t : Term}

theorem Over.subterms (h : t.Over n) : ∀ u ∈ t.subterms, u.Over n := by
  induction h with
  | ref hid => exact List.forall_mem_singleton.mpr (.ref hid)
  | int => exact List.forall_mem_singleton.mpr .int
  | bool => exact List.forall_mem_singleton.mpr .bool
  | emptySet hs => exact List.forall_mem_singleton.mpr (.emptySet hs)
  | fullSet hs => exact List.forall_mem_singleton.mpr (.fullSet hs)
  | unary ha ih => exact List.forall_mem_cons.mpr ⟨.unary ha, ih⟩
  | binary ha hb iha ihb =>
    exact List.forall_mem_cons.mpr ⟨.binary ha hb, List.forall_mem_append.mpr ⟨iha, ihb⟩⟩
  | nary hargs ih =>
    refine List.forall_mem_cons.mpr ⟨.nary hargs, fun u hu => ?_⟩
    rw [subtermsAll_eq] at hu
    obtain ⟨a, ha, hu⟩ := List.mem_flatMap.mp hu
    exact ih a ha u hu
  | quantified hvars hbody ih => exact List.forall_mem_cons.mpr ⟨.quantified hvars hbody, ih⟩
  | @value w a hw ha ih =>
    have hsub : (w.valueOf a).subterms = w.valueOf a :: a.subterms := by
      simp [Encoding.IntSort.valueOf, Term.subterms, subtermsAll]
    rw [hsub]
    exact List.forall_mem_cons.mpr ⟨.value hw ha, ih⟩

end Term

/-- Every declaration that the script names or asserts something of exists, and
asking for the sort of any part of an assertion finds the columns that it needs. -/
structure Script.InBounds (s : Script) : Prop where
  index : ∀ entry ∈ s.index, entry.2.index < s.arena.size
  decls : ∀ a ∈ s.assertions, ∀ id ∈ a.formula.decls, id.index < s.arena.size
  sorts : ∀ a ∈ s.assertions, ∀ t ∈ a.formula.subterms, Careful (s.sortOf t)

theorem Script.Intact.inBounds {s : Script} (hs : s.Intact) : s.InBounds where
  index := hs.index
  decls a ha := (hs.assertions a ha).decls
  sorts a ha t ht := hs.careful_sortOf ((hs.assertions a ha).subterms t ht)

namespace Encoding

open Relational

/-- However ill-formed a model is, encoding it gives a script in bounds or fails
for one of three reasons: a construct that is not supported, a variable that is
not bound, or a malformed argument. What a failed run leaves is in bounds too. -/
theorem encode_in_bounds (m : Model) (settings : Settings) (names : NameSupply) :
    ((∃ s, (m.encode settings names).1 = .ok s ∧ s.InBounds) ∨
      (∃ cause, (m.encode settings names).1 = .error (.unsupported cause)) ∨
      (∃ name, (m.encode settings names).1 = .error (.unbound name)) ∨
      ∃ cause, (m.encode settings names).1 = .error (.term (.malformed cause))) ∧
    ((encodeModel settings.fieldTyping m).run.run ⟨.empty, names⟩).2.script.InBounds := by
  have hstays (start : NameSupply) := (stepwise_afterBuiltins settings.fieldTyping (m := m)).stays
    (p := ⟨builtinScript, start⟩) intact_builtinScript (Nat.le_refl 8)
  refine ⟨?_, by rw [run_encodeModel]; exact (hstays names).intact.inBounds⟩
  obtain ⟨hintact, _, _, herror⟩ := hstays (if settings.resetNames then .reset else names)
  simp only [Model.encode]
  rw [run_encodeModel]
  generalize (afterBuiltins settings.fieldTyping m).run.run _ = run at hintact herror ⊢
  obtain ⟨result, q⟩ := run
  cases result with
  | ok u => exact .inl ⟨q.script, rfl, hintact.inBounds⟩
  | error e =>
    cases herror e rfl with
    | unsupported cause => exact .inr (.inl ⟨cause, rfl⟩)
    | unbound _ => exact .inr (.inr (.inl ⟨_, rfl⟩))
    | malformed cause => exact .inr (.inr (.inr ⟨cause, rfl⟩))

end Encoding

end TupleLogic
