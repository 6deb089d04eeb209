import Mathlib.Data.List.Perm.Basic
import TupleLogic.Proofs.Representation

/-! Which terms bind which variables. Variables are added to a script before
the terms that bind them, so while a term is being built some variables are
still unbound. `s.Charges t new` says that on the way from `s` to `t` exactly
the variables in `new` were added and are still to be bound, each as often as
it stands there. Runs add up, and a script whose terms are all in place has no
variable left: each is bound once. -/

namespace TupleLogic

namespace Term

mutual
/-- The term and all of its parts. -/
def subterms : Term → List Term
  | .unary op a => .unary op a :: a.subterms
  | .binary op a b => .binary op a b :: (a.subterms ++ b.subterms)
  | .nary op args => .nary op args :: subtermsAll args
  | .quantified q vars body => .quantified q vars body :: body.subterms
  | .ite c a b => .ite c a b :: (c.subterms ++ a.subterms ++ b.subterms)
  | .call f args => .call f args :: subtermsAll args
  | t => [t]

def subtermsAll : List Term → List Term
  | [] => []
  | t :: ts => t.subterms ++ subtermsAll ts
end

mutual
/-- Every variable in the list of a quantifier, as often as it is there. -/
def binders : Term → List DeclId
  | .ref _ | .int _ | .bool _ | .emptySet _ | .fullSet _ => []
  | .unary _ a => a.binders
  | .binary _ a b => a.binders ++ b.binders
  | .nary _ args | .call _ args => bindersAll args
  | .quantified _ vars body => vars ++ body.binders
  | .ite c a b => c.binders ++ a.binders ++ b.binders

def bindersAll : List Term → List DeclId
  | [] => []
  | t :: ts => t.binders ++ bindersAll ts
end

theorem bindersAll_eq (ts : List Term) : bindersAll ts = ts.flatMap binders := by
  induction ts with
  | nil => rfl
  | cons t ts ih => rw [bindersAll, ih, List.flatMap_cons]

end Term

/-- The parameters of a definition and what its body binds. -/
def Declaration.binders : Declaration → List DeclId
  | .definition _ parameters _ body => parameters ++ body.binders
  | _ => []

namespace Script

def binders (s : Script) : List DeclId :=
  s.arena.toList.flatMap Declaration.binders ++ s.assertions.flatMap (·.formula.binders)

/-- How many more times a variable has to be bound, for every variable to be
bound once. -/
def unbound (s : Script) (x : DeclId) : Int :=
  (s.entries .variable).count x - s.binders.count x

/-- From `s` to `t`, the variables in `new` were added and not bound. -/
def Charges (s t : Script) (new : List DeclId) : Prop :=
  ∀ x, t.unbound x = s.unbound x + new.count x

variable {s t u : Script} {new new' : List DeclId}

theorem Charges.refl (s : Script) : s.Charges s [] := fun x => by simp

theorem Charges.trans (h : s.Charges t new) (h' : t.Charges u new') :
    s.Charges u (new ++ new') := by
  intro x
  rw [h' x, h x, List.count_append]
  omega

/-- Only how often each variable is in the list matters. -/
theorem Charges.of_count (h : s.Charges t new) (hcount : ∀ x, new.count x = new'.count x) :
    s.Charges t new' := fun x => by rw [h x, hcount x]

theorem Charges.perm (h : s.Charges t new) (hperm : new.Perm new') : s.Charges t new' :=
  h.of_count fun x => hperm.count_eq x

theorem unbound_eq_of_arena (harena : t.arena = s.arena) (hasserts : t.assertions = s.assertions)
    (x : DeclId) : t.unbound x = s.unbound x := by
  rw [unbound, unbound, entries_eq_of_arena harena, binders, binders, harena, hasserts]

/-- Sorts, lists and the index bind nothing. -/
theorem Charges.of_arena (harena : t.arena = s.arena) (hasserts : t.assertions = s.assertions) :
    s.Charges t [] := fun x => by simp [unbound_eq_of_arena harena hasserts]

theorem binders_push {d : Declaration} (harena : t.arena = s.arena.push d)
    (hasserts : t.assertions = s.assertions) (x : DeclId) :
    t.binders.count x = s.binders.count x + d.binders.count x := by
  simp only [binders, harena, hasserts, Array.toList_push, List.flatMap_append,
    List.flatMap_singleton, List.count_append]
  omega

theorem charges_addVariable (s : Script) (name : String) (sort : TermSort) :
    s.Charges (s.addVariable name sort).2 [s.nextId] := by
  intro x
  have harena : (s.addVariable name sort).2.arena = s.arena.push (.variable name sort) := rfl
  have hbinders := binders_push harena rfl x
  simp only [Declaration.binders, List.count_nil] at hbinders
  have hentries : (s.addVariable name sort).2.entries .variable = s.entries .variable ++ [s.nextId] :=
    entries_push harena .variable
  rw [unbound, unbound, hbinders, hentries, List.count_append]
  omega

/-- A declaration settles what it binds. -/
theorem charges_add {d : Declaration} (hkind : d.kind ≠ .variable) (h : s.Charges t d.binders) :
    s.Charges (t.add d) [] := by
  intro x
  have harena : (t.add d).arena = t.arena.push d := rfl
  have hbinders := binders_push harena rfl x
  have ht := h x
  rw [unbound] at ht
  rw [unbound, hbinders, entries_push harena, if_neg hkind, List.append_nil,
    List.count_nil]
  omega

/-- An assertion settles what its formula binds. -/
theorem charges_addAssertion {name : Option String} {formula : Term}
    (h : s.Charges t formula.binders) : s.Charges (t.addAssertion name formula) [] := by
  intro x
  have ht := h x
  have hbinders : (t.addAssertion name formula).binders.count x =
      t.binders.count x + formula.binders.count x := by
    simp [binders, addAssertion, Nat.add_assoc]
  rw [unbound] at ht
  rw [unbound, hbinders, entries_eq_of_arena (s := t) (t := t.addAssertion name formula) rfl,
    List.count_nil]
  omega

theorem unbound_empty (x : DeclId) : empty.unbound x = 0 := rfl

/-- Once everything is in place, the variables are bound once each. -/
theorem Charges.binders_perm (h : empty.Charges s []) : s.binders.Perm (s.entries .variable) := by
  rw [List.perm_iff_count]
  intro x
  have hx := h x
  rw [unbound_empty, unbound, List.count_nil] at hx
  omega

end Script

end TupleLogic
