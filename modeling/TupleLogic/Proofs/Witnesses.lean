import TupleLogic.Proofs.RelationEncoding

/-! Witnesses that are owed. Variables that a formula still owes are bound one
witness after the other, each inside those before it. Binding all of them at
once, as `Encoded.close` does, says the same, because a guard mentions no
variable of a later witness. -/

namespace TupleLogic.Encoding

variable {E : Type} {f : Script} {M : Structure E}

/-- The property holds for some values of the witnesses' variables, for which
their guards hold. -/
def Owes (f : Script) : List Witness → (Structure E → Prop) → Structure E → Prop
  | [], P, M => P M
  | w :: ws, P, M => ∃ vs, M.Fits f w.vars vs ∧ w.guard.Holds f (M.assign w.vars vs) ∧
      Owes f ws P (M.assign w.vars vs)

/-- An encoded formula is true if it is for some values of what it owes. -/
def Encoded.Truth (r : Encoded) (f : Script) (M : Structure E) : Prop :=
  Owes f r.witnesses (fun N => r.term.Holds f N) M

/-- The witnesses' variables are declared from `lo` up to `hi`, each witness
after the variables and guards of those before it. -/
inductive Chain (f : Script) : Nat → Nat → List Witness → Prop where
  | nil {lo hi : Nat} : lo ≤ hi → Chain f lo hi []
  | cons {lo mid hi : Nat} {w : Witness} {ws : List Witness} : w.vars ≠ [] → lo ≤ mid →
      (∀ x ∈ w.vars, lo ≤ x.index ∧ x.index < mid) → w.guard.Below f mid → Chain f mid hi ws →
      Chain f lo hi (w :: ws)

namespace Chain

variable {lo lo' mid hi hi' : Nat} {ws us : List Witness}

theorem le (h : Chain f lo hi ws) : lo ≤ hi := by
  induction h with
  | nil hle => exact hle
  | cons _ hle _ _ _ ih => exact Nat.le_trans hle ih

theorem weaken (hle : lo' ≤ lo) (h : Chain f lo hi ws) : Chain f lo' hi ws := by
  cases h with
  | nil hlo => exact .nil (Nat.le_trans hle hlo)
  | cons hne hlo hvars hguard hrest =>
    refine .cons hne (Nat.le_trans hle hlo) (fun x hx => ?_) hguard hrest
    have := hvars x hx
    omega

theorem raise (hle : hi ≤ hi') (h : Chain f lo hi ws) : Chain f lo hi' ws := by
  induction h with
  | nil hlo => exact .nil (Nat.le_trans hlo hle)
  | cons hne hlo hvars hguard _ ih => exact .cons hne hlo hvars hguard (ih hle)

theorem append (h : Chain f lo mid ws) (h' : Chain f mid hi us) : Chain f lo hi (ws ++ us) := by
  induction h with
  | nil hle => exact h'.weaken hle
  | cons hne hle hvars hguard _ ih => exact .cons hne hle hvars hguard (ih h')

theorem vars_ge (h : Chain f lo hi ws) : ∀ x ∈ ws.flatMap Witness.vars, lo ≤ x.index := by
  induction h with
  | nil _ => simp
  | cons _ hle hvars _ _ ih =>
    intro x hx
    rcases List.mem_append.mp hx with hx | hx
    · exact (hvars x hx).1
    · exact Nat.le_trans hle (ih x hx)

theorem vars_ne_nil (h : Chain f lo hi ws) (hne : ws ≠ []) : ws.flatMap Witness.vars ≠ [] := by
  cases h with
  | nil _ => exact absurd rfl hne
  | cons hvars _ _ _ _ => exact fun h => hvars (List.append_eq_nil_iff.mp h).1

theorem guards_below (h : Chain f lo hi ws) : ∀ w ∈ ws, w.guard.Below f hi := by
  induction h with
  | nil _ => simp
  | cons _ _ _ hguard hrest ih =>
    intro w hw
    rcases List.mem_cons.mp hw with rfl | hw
    · exact hguard.mono hrest.le
    · exact ih w hw

end Chain

/-! ## Properties owed -/

theorem owes_append (ws us : List Witness) (P : Structure E → Prop) :
    Owes f (ws ++ us) P M ↔ Owes f ws (Owes f us P) M := by
  induction ws generalizing M with
  | nil => exact Iff.rfl
  | cons w ws ih => exact exists_congr fun vs => and_congr_right' (and_congr_right' ih)

/-- Only the structures that agree with `M` off the witnesses matter. -/
theorem owes_congr {lo hi : Nat} {ws : List Witness} (h : Chain f lo hi ws)
    {P Q : Structure E → Prop} (hPQ : ∀ N, M.AgreesOff lo hi N → (P N ↔ Q N)) :
    Owes f ws P M ↔ Owes f ws Q M := by
  induction h generalizing M with
  | nil _ => exact hPQ M (.refl _ _ M)
  | cons _ hle hvars _ hrest ih =>
    refine exists_congr fun vs => and_congr_right' (and_congr_right' (ih fun N hN => ?_))
    exact hPQ N ((M.agreesOff_assign vs hvars).trans hle hrest.le hN)

theorem owes_and_const (ws : List Witness) (P : Structure E → Prop) (c : Prop) :
    Owes f ws (fun N => P N ∧ c) M ↔ Owes f ws P M ∧ c := by
  induction ws generalizing M with
  | nil => exact Iff.rfl
  | cons w ws ih =>
    simp only [Owes, ih]
    constructor
    · rintro ⟨vs, hfit, hguard, h, hc⟩
      exact ⟨⟨vs, hfit, hguard, h⟩, hc⟩
    · rintro ⟨⟨vs, hfit, hguard, h⟩, hc⟩
      exact ⟨vs, hfit, hguard, h, hc⟩

/-- A property that later witnesses cannot change, together with one that owes
them and whose truth is known. -/
theorem owes_append_and {lo mid hi : Nat} {ws us : List Witness} (hws : Chain f lo mid ws)
    (hus : Chain f mid hi us) {P Q : Structure E → Prop} {c : Prop}
    (hP : ∀ {N N'}, N.Agrees mid N' → (P N ↔ P N'))
    (hQ : ∀ N, M.AgreesOff lo mid N → (Owes f us Q N ↔ c)) :
    Owes f (ws ++ us) (fun N => P N ∧ Q N) M ↔ Owes f ws P M ∧ c := by
  rw [owes_append, ← owes_and_const]
  refine owes_congr hws fun N hN => ?_
  calc Owes f us (fun K => P K ∧ Q K) N
    _ ↔ Owes f us (fun K => Q K ∧ P N) N :=
        owes_congr hus fun K hK => by rw [hP hK.agrees, and_comm]
    _ ↔ Owes f us Q N ∧ P N := owes_and_const us Q (P N)
    _ ↔ P N ∧ c := by rw [hQ N hN, and_comm]

/-! ## Closing -/

/-- Values for two lists of variables come apart. -/
theorem fits_append {xs ys : List DeclId} {vs : List (TermValue E)} :
    M.Fits f (xs ++ ys) vs ↔ ∃ us ws, vs = us ++ ws ∧ M.Fits f xs us ∧ M.Fits f ys ws := by
  constructor
  · intro h
    have h' := h.flip
    refine ⟨vs.take xs.length, vs.drop xs.length, (List.take_append_drop _ _).symm, ?_, ?_⟩
    · exact (List.forall₂_take_append vs xs ys h').flip
    · exact (List.forall₂_drop_append vs xs ys h').flip
  · rintro ⟨us, ws, rfl, hx, hy⟩
    exact List.rel_append hx hy

theorem owes_iff_exists {lo hi : Nat} {ws : List Witness} (h : Chain f lo hi ws)
    (P : Structure E → Prop) : Owes f ws P M ↔
      ∃ vs, M.Fits f (ws.flatMap Witness.vars) vs ∧
        (∀ w ∈ ws, w.guard.Holds f (M.assign (ws.flatMap Witness.vars) vs)) ∧
        P (M.assign (ws.flatMap Witness.vars) vs) := by
  induction h generalizing M with
  | nil _ =>
    constructor
    · exact fun hP => ⟨[], .nil, fun w hw => (nomatch hw), hP⟩
    · rintro ⟨vs, hfit, _, hP⟩
      cases hfit
      exact hP
  | @cons lo mid hi w ws _ _ _ hguard hrest ih =>
    -- The guard of `w` does not see the values of later variables.
    have hlater : ∀ {us vs}, M.Fits f w.vars us →
        (w.guard.Holds f (M.assign (w.vars ++ ws.flatMap Witness.vars) (us ++ vs)) ↔
          w.guard.Holds f (M.assign w.vars us)) := fun {us vs} hfit => by
      rw [M.assign_append hfit.length_eq]
      exact (Term.holds_congr hguard (Structure.agrees_assign _ vs hrest.vars_ge)).symm
    simp only [Owes, ih, List.flatMap_cons, List.forall_mem_cons]
    constructor
    · rintro ⟨us, hfit, hg, vs, hfits, hgs, hP⟩
      rw [Structure.fits_congr (M.carrier_assign _ _)] at hfits
      refine ⟨us ++ vs, fits_append.mpr ⟨us, vs, rfl, hfit, hfits⟩, ⟨(hlater hfit).mpr hg, ?_⟩, ?_⟩
      · rwa [M.assign_append hfit.length_eq]
      · rwa [M.assign_append hfit.length_eq]
    · rintro ⟨_, hfits, ⟨hg, hgs⟩, hP⟩
      obtain ⟨us, vs, rfl, hfit, hfits⟩ := fits_append.mp hfits
      refine ⟨us, hfit, (hlater hfit).mp hg, vs, ?_, ?_, ?_⟩
      · rwa [Structure.fits_congr (M.carrier_assign _ _)]
      · rwa [← M.assign_append hfit.length_eq]
      · rwa [← M.assign_append hfit.length_eq]

theorem holds_conjNontrivial (ts : List Term) :
    (conjNontrivial ts).Holds f M ↔ ∀ t ∈ ts, t.Holds f M := by
  rw [conjNontrivial, Term.holds_conj]
  constructor
  · intro h t ht
    by_cases htrue : t.isTrue
    · cases t with
      | bool b =>
        cases b with
        | true => exact rfl
        | false => cases htrue
      | _ => cases htrue
    · exact h t (List.mem_filter.mpr ⟨ht, by simp [htrue]⟩)
  · exact fun h t ht => h t (List.mem_filter.mp ht).1

theorem below_conjNontrivial {n : Nat} {ts : List Term} (h : ∀ t ∈ ts, t.Below f n) :
    (conjNontrivial ts).Below f n :=
  Term.below_conj fun t ht => h t (List.mem_filter.mp ht).1

/-- Closing never fails: every witness has variables to bind. -/
theorem Encoded.close_eq {r : Encoded} {lo hi : Nat} (hw : Chain f lo hi r.witnesses) :
    r.close = .ok (if r.witnesses.isEmpty then r.term
      else .quantified .exist (r.witnesses.flatMap Witness.vars)
        (conjNontrivial (r.witnesses.map Witness.guard ++ [r.term]))) := by
  unfold Encoded.close
  split
  · rfl
  · rename_i hne
    have hvars : (r.witnesses.flatMap Witness.vars).isEmpty = false := by
      rw [← Bool.not_eq_true, List.isEmpty_iff]
      exact hw.vars_ne_nil fun hnil => hne (List.isEmpty_iff.mpr hnil)
    simp only [Term.thereExists, Term.quantify, hvars]
    rfl

theorem Encoded.close_holds {r : Encoded} {t : Term} {lo hi : Nat} (hw : Chain f lo hi r.witnesses)
    (h : r.close = .ok t) : t.Holds f M ↔ r.Truth f M := by
  rw [close_eq hw, Except.ok.injEq] at h
  subst h
  obtain ⟨term, ws⟩ := r
  cases ws with
  | nil => exact Iff.rfl
  | cons w ws =>
    rw [Encoded.Truth, owes_iff_exists hw]
    refine (Term.holds_exist _ _).trans (exists_congr fun vs => and_congr_right' ?_)
    rw [holds_conjNontrivial]
    simp only [List.forall_mem_append, List.forall_mem_map, List.forall_mem_singleton]

theorem Encoded.close_below {r : Encoded} {t : Term} {lo hi : Nat} (hw : Chain f lo hi r.witnesses)
    (ht : r.term.Below f hi) (h : r.close = .ok t) : t.Below f hi := by
  rw [close_eq hw, Except.ok.injEq] at h
  subst h
  split
  · exact ht
  · refine below_conjNontrivial fun u hu => ?_
    rcases List.mem_append.mp hu with hu | hu
    · obtain ⟨w, hw', rfl⟩ := List.mem_map.mp hu
      exact hw.guards_below w hw'
    · rw [List.mem_singleton.mp hu]
      exact ht

end TupleLogic.Encoding
