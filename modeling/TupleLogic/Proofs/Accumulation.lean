import TupleLogic.Proofs.BoundedAccess

/-! Encoders take nothing back. A run adds declarations and assertions after those
that are there, so whatever a command asserts is asserted in the script of the whole
model. -/

namespace TupleLogic

open Encoding

namespace Encoding

open Relational Encoder

variable {α : Type} {given : List String} {free : String → Prop} {n k : Nat} {p q : Progress}

/-- A state in which `n` declarations exist, and where all lead to declarations. -/
structure Ready (n : Nat) (p : Progress) : Prop where
  intact : p.script.Intact
  size : n ≤ p.script.arena.size

section Runs

variable {m : Encoder α} {post : Nat → α → Prop} {a : α}

theorem Stepwise.ready (h : Stepwise given free n m post) (hp : Ready n p)
    (hr : Returns m p a q) : Ready n q := by
  have hstays := h.stays hp.intact hp.size
  rw [hr] at hstays
  exact ⟨hstays.intact, hstays.size⟩

/-- What a run returns, where the declarations that it mentions exist. -/
theorem Stepwise.result (h : Stepwise given free n m post) (hp : Ready n p)
    (hr : Returns m p a q) : ∃ k, n ≤ k ∧ Ready k q ∧ post k a := by
  have hstays := h.stays hp.intact hp.size
  rw [hr] at hstays
  obtain ⟨k, hnk, hkq, hpost⟩ := hstays.result a rfl
  exact ⟨k, hnk, ⟨hstays.intact, hkq⟩, hpost⟩

theorem Stepwise.grows (h : Stepwise given free n m post) (hp : Ready n p)
    (hr : Returns m p a q) : p.script.Continues q.script := by
  induction h generalizing p q with
  | pure _ =>
    obtain ⟨_, rfl⟩ := returns_pure.mp hr
    exact .refl _
  | bind hm _ ihm ihf =>
    obtain ⟨b, r, hb, hr⟩ := returns_bind.mp hr
    obtain ⟨k, hnk, hk, hmid⟩ := hm.result hp hb
    exact (ihm hp hb).trans (ihf k b hnk hmid hk hr)
  | weaken _ _ ih => exact ih hp hr
  | unsupported => exact (not_returns_unsupported hr).elim
  | unbound _ | malformed => exact (not_returns_throw hr).elim
  | sortOf _ =>
    obtain ⟨_, rfl⟩ := returns_sortOf.mp hr
    exact .refl _
  | @declareRelation _ name _ _ _ =>
    cases hname : p.script.lookup name with
    | none =>
      rw [Returns, run_declareRelation hname] at hr
      cases hr
      exact Script.continues_add hname
    | some id =>
      rw [Returns, run_declareRelation_taken hname] at hr
      cases hr
  | @freshVariable _ sort _ =>
    obtain ⟨_, rfl⟩ := returns_freshVariable.mp hr
    exact (p.withVariable_grows sort).continues
  | freshElement _ =>
    cases hname : p.script.lookup p.names.freshElement.1 with
    | none =>
      rw [Returns, run_freshElement hname] at hr
      cases hr
      exact Script.continues_add hname
    | some id =>
      rw [Returns, run_freshElement_taken hname] at hr
      cases hr
  | freshSet _ =>
    cases hname : p.script.lookup p.names.freshSet.1 with
    | none =>
      rw [Returns, run_freshSet hname] at hr
      cases hr
      exact Script.continues_add hname
    | some id =>
      rw [Returns, run_freshSet_taken hname] at hr
      cases hr
  | assertTerm _ =>
    obtain rfl := returns_assertTerm.mp hr
    exact p.script.continues_addAssertion _ _

end Runs

/-! ## Assertions of commands -/

/-- The command is made of steps, and every run of it makes such an assertion. -/
structure Makes (given : List String) (free : String → Prop) (n : Nat) (command : Encoder Unit)
    (such : Assertion → Prop) : Prop where
  steps : Stepwise given free n command fun _ _ => True
  made : ∀ {p u q}, Ready n p → Returns command p u q → ∃ a ∈ q.script.assertions, such a

section Commands

variable {first second : Encoder Unit} {such such' : Assertion → Prop}

theorem Makes.imp (h : Makes given free n first such) (himp : ∀ a, such a → such' a) :
    Makes given free n first such' where
  steps := h.steps
  made hp hr := by
    obtain ⟨a, ha, hsuch⟩ := h.made hp hr
    exact ⟨a, ha, himp a hsuch⟩

theorem Makes.before (h : Makes given free n first such)
    (hsecond : Stepwise given free n second fun _ _ => True) :
    Makes given free n (do first; second) such where
  steps := h.steps.seq hsecond
  made hp hr := by
    obtain ⟨_, r, hr, hr'⟩ := returns_bind.mp hr
    obtain ⟨a, ha, hsuch⟩ := h.made hp hr
    have hgrows := hsecond.grows (h.steps.ready hp hr) hr'
    exact ⟨a, hgrows.assertions.mem ha, hsuch⟩

theorem Makes.after (h : Makes given free n second such)
    (hfirst : Stepwise given free n first fun _ _ => True) :
    Makes given free n (do first; second) such where
  steps := hfirst.seq h.steps
  made hp hr := by
    obtain ⟨_, r, hr, hr'⟩ := returns_bind.mp hr
    exact h.made (hfirst.ready hp hr) hr'

theorem makes_forM {β : Type} {f : β → Encoder Unit} {xs : List β}
    (hf : ∀ x ∈ xs, Stepwise given free n (f x) fun _ _ => True) {x : β} (hx : x ∈ xs)
    (h : Makes given free n (f x) such) : Makes given free n (xs.forM f) such := by
  induction xs with
  | nil => cases hx
  | cons y ys ih =>
    obtain ⟨hy, hys⟩ := List.forall_mem_cons.mp hf
    change Makes given free n (do f y; ys.forM f) such
    rcases List.mem_cons.mp hx with rfl | hx
    · exact h.before (.forM hys)
    · exact (ih hys hx).after hy

end Commands

/-! ## Models -/

/-- A model is encoded by declaring its relations and asserting what it says of
them. -/
theorem encodeModel_asserts {m : Model} {fieldTyping : Bool} {names : NameSupply} {u : Unit}
    (h : Returns (encodeModel fieldTyping m) ⟨.empty, names⟩ u q) :
    ∃ v n start, DeclaresVocabulary m v start ∧ v.Over n ∧ Ready n start ∧
      Returns (assertModel fieldTyping v) start u q := by
  have hbuiltin : Ready 8 ⟨builtinScript, names⟩ := ⟨intact_builtinScript, Nat.le_refl 8⟩
  rw [Returns, run_encodeModel] at h
  obtain ⟨v, start, hv, h⟩ := returns_bind.mp h
  have hsteps : Stepwise m.relationNames (fun _ => False) 8 (declareRelations m) _ :=
    stepwise_declareRelations
  obtain ⟨n, _, hstart, _, hover⟩ := hsteps.result hbuiltin hv
  have hdeclared : Returns (declareVocabulary m) ⟨.empty, names⟩ v start := by
    simp only [declareVocabulary]
    exact returns_bind.mpr ⟨_, _, declareBuiltins_returns names, hv⟩
  exact ⟨v, n, start, declareVocabulary_returns hdeclared, hover, hstart, h⟩

end Encoding

end TupleLogic
