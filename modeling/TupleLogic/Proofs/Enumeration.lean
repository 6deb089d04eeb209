import TupleLogic.Proofs.ExprEncoding
import TupleLogic.Proofs.Restriction

/-! Cardinalities by enumeration. A set of fresh constants, with the assertions
that come with it, is any set of at most so many elements, or of exactly so
many where the constants are distinct; so a bound on a cardinality holds where
such constants exist, and they can be chosen wherever the bound holds. -/

namespace TupleLogic.Encoding

open Relational Encoder
open NameSupply (elementName setName)

variable {p q : Progress}

theorem positions_succ (lo n : Nat) : positions lo (n + 1) = ⟨lo⟩ :: positions (lo + 1) n := by
  rw [positions, List.range'_succ, List.map_cons]
  rfl

/-! ## Fresh constants and sets -/

theorem freshElement_returns {sort : TermSort} {id : DeclId}
    (h : Returns (freshElement sort) p id q) :
    ∃ k, Declares (.constant (elementName k) sort) p.script id q.script := by
  simp only [freshElement, drawName, returns_bind, returns_get, returns_modify, returns_pure] at h
  obtain ⟨name, _, ⟨_, _, ⟨rfl, rfl⟩, _, _, rfl, rfl, rfl⟩, h⟩ := h
  have h := declareConstant_returns h
  exact ⟨_, h⟩

theorem freshSet_returns {sort : TermSort} {id : DeclId} (h : Returns (freshSet sort) p id q) :
    ∃ k, Declares (.function (setName k) [] sort) p.script id q.script := by
  simp only [freshSet, drawName, returns_bind, returns_get, returns_modify, returns_pure] at h
  obtain ⟨name, _, ⟨_, _, ⟨rfl, rfl⟩, _, _, rfl, rfl, rfl⟩, h⟩ := h
  have h := declareFunction_returns h
  exact ⟨_, h⟩

theorem freshElements_returns {sort : TermSort} {n : Nat} {ts : List Term}
    (h : Returns (freshElements sort n) p ts q) : ∃ numbers : List Nat, numbers.length = n ∧
      ts = (positions p.script.arena.size n).map Term.ref ∧
      DeclaresAll (numbers.map fun k => Declaration.constant (elementName k) sort) p.script
        (positions p.script.arena.size n) q.script := by
  induction n generalizing p ts with
  | zero =>
    obtain ⟨rfl, rfl⟩ := returns_pure.mp h
    exact ⟨[], rfl, rfl, declaresAll_nil⟩
  | succ n ih =>
    simp only [freshElements, returns_bind, returns_pure] at h
    obtain ⟨id, s, hid, ts', _, hts, rfl, rfl⟩ := h
    obtain ⟨k, hid⟩ := freshElement_returns hid
    obtain ⟨numbers, hlen, rfl, hall⟩ := ih hts
    have hpos : positions p.script.arena.size (n + 1) =
        id :: positions s.script.arena.size n := by
      rw [positions_succ, hid.position, hid.size]
      rfl
    refine ⟨k :: numbers, congrArg (· + 1) hlen, by rw [hpos]; rfl, ?_⟩
    rw [hpos]
    exact hid.all.append hall

/-- A script with `n` new constants and a set of them. -/
structure Enumerates (n : Nat) (element set : TermSort) (pairwise : Bool) (s t : Script)
    (new : List Assertion) : Prop where
  extension : s.Extends t
  assertions : t.assertions = s.assertions ++ new
  size : t.arena.size = s.arena.size + n + 1
  constant : ∀ id ∈ positions s.arena.size n, ∃ k,
    t.arena[id.index]? = some (.constant (elementName k) element)
  set : ∃ k, t.arena[s.arena.size + n]? = some (.function (setName k) [] set)
  holds : ∀ {f : Script} {E : Type} {M : Structure E}, M.Models f new ↔
    (pairwise = true → ((positions s.arena.size n).map (M.meaning · [])).Pairwise (· ≠ ·)) ∧
      M.meaning ⟨s.arena.size + n⟩ [] =
        .set {d | ∃ id ∈ positions s.arena.size n, (M.meaning id []).toDatum = d}

theorem distinguish_returns {ids : List DeclId} {pairwise : Bool} {u : Unit} {s : Progress}
    (h : Returns (distinguish pairwise (ids.map .ref)) p u s) :
    ∃ new, s.script = { p.script with assertions := p.script.assertions ++ new } ∧
      ∀ {f : Script} {E : Type} {M : Structure E}, M.Models f new ↔
        (pairwise = true → (ids.map (M.meaning · [])).Pairwise (· ≠ ·)) := by
  unfold distinguish at h
  split at h
  · rename_i hc
    simp only [returns_bind, returns_liftTerm, returns_assertTerm] at h
    obtain ⟨d, _, ⟨hd, rfl⟩, rfl⟩ := h
    unfold Term.distinct at hd
    split at hd
    · cases hd
    · cases hd
      refine ⟨[⟨none, .nary .distinct (ids.map .ref)⟩], rfl, ?_⟩
      intro f E M
      rw [Bool.and_eq_true] at hc
      simp only [Structure.Models, List.forall_mem_singleton, hc.1, forall_const]
      change (Term.evalAll f (ids.map .ref) M).Pairwise (· ≠ ·) ↔ _
      rw [Term.evalAll_eq_map, List.map_map]
      rfl
  · rename_i hc
    obtain ⟨_, rfl⟩ := returns_pure.mp h
    refine ⟨[], by rw [List.append_nil], ?_⟩
    intro f E M
    refine ⟨fun _ hp => ?_, fun _ => List.forall_mem_nil _⟩
    have hlen : ids.length ≤ 1 := by simpa [hp] using hc
    rcases ids with _ | ⟨id, _ | ⟨id', ids⟩⟩
    · exact .nil
    · exact List.pairwise_singleton _ _
    · simp at hlen

theorem enumerate_returns {n : Nat} {element set : TermSort} {pairwise : Bool} {t : Term}
    (h : Returns (enumerate n element set pairwise) p t q) :
    t = .ref ⟨p.script.arena.size + n⟩ ∧
      ∃ new, Enumerates n element set pairwise p.script q.script new := by
  obtain ⟨_, elements, s₁, s₂, hel, hdistinct, h⟩ := returns_enumerate.mp h
  obtain ⟨numbers, hnumbers, rfl, hall⟩ := freshElements_returns hel
  have hlen : (numbers.map fun k => Declaration.constant (elementName k) element).length = n := by
    rw [List.length_map, hnumbers]
  obtain ⟨new, hs₂, hnew⟩ := distinguish_returns hdistinct
  obtain ⟨aux, s₃, union, haux, hunion, rfl, hassert⟩ := returns_gather.mp h
  obtain rfl := returns_assertTerm.mp hassert
  obtain ⟨k, haux⟩ := freshSet_returns haux
  rw [hs₂] at haux
  have hsize₁ : s₁.script.arena.size = p.script.arena.size + n := by rw [hall.size, hlen]
  have hauxId : aux = ⟨p.script.arena.size + n⟩ := by
    rw [haux.position, Script.nextId]
    exact congrArg DeclId.mk hsize₁
  have hext₁ : s₁.script.Extends
      { s₁.script with assertions := s₁.script.assertions ++ new } := ⟨id, id⟩
  have hext : s₁.script.Extends s₃.script := hext₁.trans haux.extension
  refine ⟨by rw [hauxId], new ++ [⟨none, .equals (.ref aux) union⟩], ?_, ?_, ?_, ?_, ?_, ?_⟩
  · exact hall.extension.trans (hext.trans (Script.extends_addAssertion ..))
  · change s₃.script.assertions ++ [_] = _
    rw [haux.assertions]
    change (s₁.script.assertions ++ new) ++ [_] = _
    rw [hall.assertions, List.append_assoc]
  · change s₃.script.arena.size = _
    rw [haux.size]
    exact congrArg (· + 1) hsize₁
  · intro id hid
    obtain ⟨d, hd, hdecl⟩ : ∃ d ∈ numbers.map fun k => Declaration.constant (elementName k) element,
        s₁.script.arena[id.index]? = some d := by
      obtain ⟨i, hi, rfl⟩ := List.getElem_of_mem hid
      have hi' := hall.decls.length_eq.symm ▸ hi
      exact ⟨_, List.getElem_mem hi', (hall.decls.get hi' hi).1⟩
    obtain ⟨k, _, rfl⟩ := List.mem_map.mp hd
    exact ⟨k, hext.decl hdecl⟩
  · have hdecl := haux.decl
    rw [hauxId] at hdecl
    exact ⟨k, hdecl⟩
  · intro f E M
    rw [Structure.models_append, hnew, hauxId]
    refine and_congr_right' ?_
    have heval : union.eval f M =
        .set {d | ∃ id ∈ positions p.script.arena.size n, (M.meaning id []).toDatum = d} := by
      rw [Term.eval_unionAll hunion]
      · congr 1
        ext d
        simp [eq_comm]
      · intro u hu
        obtain ⟨r, _, rfl⟩ := List.mem_map.mp hu
        rfl
    rw [Structure.Models, List.forall_mem_singleton]
    change M.meaning _ [] = union.eval f M ↔ _
    rw [heval]

/-- `M` with the values `ds` for the `ds.length` constants from `start` on and the set of
them after these. -/
def enumerating {E : Type} (M : Structure E) (start : Nat) (ds : List (Datum E)) :
    Structure E :=
  (M.assign (positions start ds.length) (ds.map .datum)).set ⟨start + ds.length⟩ (.set {d | d ∈ ds})

section Enumerating

variable {E : Type} (M : Structure E) (start : Nat) (ds : List (Datum E))

theorem meaning_enumerating_set (args : List (TermValue E)) :
    (enumerating M start ds).meaning ⟨start + ds.length⟩ args = .set {d | d ∈ ds} :=
  Structure.meaning_set_self _ _ _ args

theorem map_meaning_enumerating :
    (positions start ds.length).map ((enumerating M start ds).meaning · []) = ds.map .datum := by
  have hlength : (positions start ds.length).length = (ds.map TermValue.datum).length := by
    rw [positions, List.length_map, List.length_range', List.length_map]
  rw [← M.map_meaning_assign (nodup_positions start ds.length) hlength]
  refine List.map_congr_left fun id hid => ?_
  rw [enumerating, Structure.meaning_set_of_ne]
  rintro rfl
  exact Nat.lt_irrefl _ (mem_positions.mp hid).2

theorem agreesOff_enumerating :
    M.AgreesOff start (start + ds.length + 1) (enumerating M start ds) := by
  refine ⟨(M.carrier_assign _ _).symm, fun id hid => ?_⟩
  have hset : id ≠ ⟨start + ds.length⟩ := by
    rintro rfl
    simp only at hid
    omega
  rw [enumerating, Structure.meaning_set_of_ne _ hset, M.meaning_assign_of_notMem]
  rw [mem_positions]
  omega

variable {M start ds}

theorem exists_meaning_enumerating {id : DeclId} (hid : id ∈ positions start ds.length) :
    ∃ d ∈ ds, (enumerating M start ds).meaning id [] = .datum d := by
  have hvalue := List.mem_map_of_mem (f := ((enumerating M start ds).meaning · [])) hid
  rw [map_meaning_enumerating] at hvalue
  obtain ⟨d, hd, heq⟩ := List.mem_map.mp hvalue
  exact ⟨d, hd, heq.symm⟩

/-- The set holds just the values of the constants. -/
theorem mem_enumerating_iff {d : Datum E} : d ∈ ds ↔
    ∃ id ∈ positions start ds.length, ((enumerating M start ds).meaning id []).toDatum = d := by
  constructor
  · intro hd
    have hvalue : TermValue.datum d ∈ ds.map TermValue.datum := List.mem_map_of_mem hd
    rw [← map_meaning_enumerating M start] at hvalue
    obtain ⟨id, hid, heq⟩ := List.mem_map.mp hvalue
    exact ⟨id, hid, by rw [heq, TermValue.toDatum_datum]⟩
  · rintro ⟨id, hid, rfl⟩
    obtain ⟨d, hd, heq⟩ := exists_meaning_enumerating (M := M) hid
    rw [heq, TermValue.toDatum_datum]
    exact hd

end Enumerating

/-- The constants can be given any values of their sort. -/
theorem Enumerates.choose {n : Nat} {element : TermSort} {pairwise : Bool} {s t f : Script}
    {new : List Assertion} {E : Type} {M : Structure E} {ds : List (Datum E)}
    (h : Enumerates n element (.set element) pairwise s t new) (hf : t.Extends f)
    (hlen : ds.length = n)
    (hsort : ∀ d ∈ ds, d.HasSort M.carrier element) (hnodup : pairwise = true → ds.Nodup) :
    ∃ N, M.AgreesOff s.arena.size t.arena.size N ∧ N.SortedOn f s.arena.size t.arena.size ∧
      N.Models f new ∧ N.meaning ⟨s.arena.size + n⟩ [] = .set {d | d ∈ ds} := by
  subst hlen
  have hsize := h.size
  have hoff := agreesOff_enumerating M s.arena.size ds
  rw [← hsize] at hoff
  refine ⟨_, hoff, ?_, h.holds.mpr ⟨fun hp => ?_, ?_⟩, meaning_enumerating_set M _ _ []⟩
  · intro id d hlo hid hd
    by_cases hc : id ∈ positions s.arena.size ds.length
    · obtain ⟨k, hname⟩ := h.constant id hc
      rw [hf.decl hname, Option.some.injEq] at hd
      obtain ⟨d', hd', hm⟩ := exists_meaning_enumerating (M := M) hc
      rw [← hd, Structure.Respects, hm, ← hoff.1]
      exact TermValue.hasSort_datum.mpr (hsort d' hd')
    · obtain rfl : id = ⟨s.arena.size + ds.length⟩ := by
        rw [mem_positions] at hc
        have : id.index = s.arena.size + ds.length := by omega
        rw [← this]
      obtain ⟨k, hname⟩ := h.set
      rw [hf.decl hname, Option.some.injEq] at hd
      rw [← hd]
      intro args _
      rw [meaning_enumerating_set, ← hoff.1]
      exact hsort
  · rw [map_meaning_enumerating]
    exact (List.nodup_map_iff fun _ _ hd => TermValue.datum.inj hd).mpr (hnodup hp)
  · rw [meaning_enumerating_set]
    exact congrArg TermValue.set (Set.ext fun d => mem_enumerating_iff)

/-! ## Bounds -/

/-- What a bound says of a number of elements. -/
def CountBound.Admits : CountBound → Nat → Prop
  | .exactly k, n => (n : Int) = k
  | .atMost k, n => (n : Int) ≤ k
  | .atLeast k, n => k ≤ (n : Int)
  | .beyond, n => 9223372036854775807 < n

section Lists

variable {β : Type} {R : Set β} {ds : List β}

/-- A finite set as a list. -/
theorem exists_list_of_finite (hR : R.Finite) :
    ∃ ds : List β, ds.Nodup ∧ ds.length = R.ncard ∧ {d | d ∈ ds} = R := by
  refine ⟨hR.toFinset.toList, hR.toFinset.nodup_toList, ?_, ?_⟩
  · rw [Finset.length_toList, Set.ncard_eq_toFinset_card R hR]
  · ext d
    simp

theorem finite_mem_list (ds : List β) : {d | d ∈ ds}.Finite := List.finite_toSet ds

theorem ncard_mem_list (hds : ds.Nodup) : {d | d ∈ ds}.ncard = ds.length := by
  classical
  have hset : {d | d ∈ ds} = (ds.toFinset : Set β) := by
    ext d
    simp
  rw [hset, Set.ncard_coe_finset, List.toFinset_card_of_nodup hds]

theorem ncard_mem_list_le (ds : List β) : {d | d ∈ ds}.ncard ≤ ds.length := by
  classical
  have hset : {d | d ∈ ds} = (ds.toFinset : Set β) := by
    ext d
    simp
  rw [hset, Set.ncard_coe_finset]
  exact List.toFinset_card_le ds

/-- A set has at most `n` elements if `n` elements, some of which may be the
same, are all that it can have. -/
theorem ncard_le_iff_exists_list (hR : R.Finite) (d₀ : β) {n : Nat} :
    R.ncard ≤ n ↔ ∃ ds : List β, ds.length = n ∧ (∀ d ∈ ds, d ∈ R ∨ d = d₀) ∧ R ⊆ {d | d ∈ ds} := by
  constructor
  · intro hle
    obtain ⟨ds, _, hlen, rfl⟩ := exists_list_of_finite hR
    refine ⟨ds ++ List.replicate (n - ds.length) d₀, ?_, ?_, ?_⟩
    · rw [List.length_append, List.length_replicate]
      omega
    · intro d hd
      rcases List.mem_append.mp hd with hd | hd
      · exact .inl hd
      · exact .inr (List.eq_of_mem_replicate hd)
    · exact fun d hd => List.mem_append_left _ hd
  · rintro ⟨ds, rfl, _, hsub⟩
    exact (Set.ncard_le_ncard hsub (finite_mem_list ds)).trans (ncard_mem_list_le ds)

/-- A finite set has at least `n` elements if it holds `n` different ones. -/
theorem le_ncard_iff_exists_list (hR : R.Finite) {n : Nat} :
    n ≤ R.ncard ↔ ∃ ds : List β, ds.length = n ∧ ds.Nodup ∧ {d | d ∈ ds} ⊆ R := by
  constructor
  · intro hle
    obtain ⟨ds, hnodup, hlen, rfl⟩ := exists_list_of_finite hR
    refine ⟨ds.take n, ?_, hnodup.take, fun d hd => List.mem_of_mem_take hd⟩
    rw [List.length_take]
    omega
  · rintro ⟨ds, rfl, hnodup, hsub⟩
    rw [← ncard_mem_list hnodup]
    exact Set.ncard_le_ncard hsub hR

theorem ncard_eq_iff_exists_list (hR : R.Finite) {n : Nat} :
    R.ncard = n ↔ ∃ ds : List β, ds.length = n ∧ ds.Nodup ∧ R = {d | d ∈ ds} := by
  constructor
  · rintro rfl
    obtain ⟨ds, hnodup, hlen, hds⟩ := exists_list_of_finite hR
    exact ⟨ds, hlen, hnodup, hds.symm⟩
  · rintro ⟨ds, rfl, hnodup, rfl⟩
    exact ncard_mem_list hnodup

end Lists

end TupleLogic.Encoding
