import TupleLogic.Proofs.Conformance
import TupleLogic.Script.Reader

/-! Terms of two scripts side by side. They correspond if they have the same
shape, and their variables and references agree in a way that is left open:
either as the reader resolves names, or as positions up to the names of bound
variables. The first way implies the second where every name leads back to the
declaration that it is the name of. -/

namespace TupleLogic

/-- Variables that are bound at the same place in two terms, innermost first. -/
abbrev Pairing := List (DeclId × DeclId)

/-- When a variable agrees with another, and a reference with a term. -/
structure Correspondence where
  binder : DeclId → DeclId → Prop
  ref : Pairing → DeclId → Term → Prop

/-- Binds variables side by side; later ones are further inside. -/
def Pairing.bind (ρ : Pairing) (vars vars' : List DeclId) : Pairing :=
  (vars.zip vars').reverse ++ ρ

mutual
def Term.Corresponds (c : Correspondence) (ρ : Pairing) : Term → Term → Prop
  | .ref id, u => c.ref ρ id u
  | .int n, u => u = .int n
  | .bool b, u => u = .bool b
  | .emptySet sort, u => u = .emptySet sort
  | .fullSet sort, u => u = .fullSet sort
  | .unary op a, u => ∃ a', u = .unary op a' ∧ a.Corresponds c ρ a'
  | .binary op a b, u =>
    ∃ a' b', u = .binary op a' b' ∧ a.Corresponds c ρ a' ∧ b.Corresponds c ρ b'
  | .nary op args, u => ∃ args', u = .nary op args' ∧ CorrespondsAll c ρ args args'
  | .quantified q vars body, u =>
    ∃ vars' body', u = .quantified q vars' body' ∧ List.Forall₂ c.binder vars vars' ∧
      body.Corresponds c (ρ.bind vars vars') body'
  | .ite e a b, u => ∃ e' a' b', u = .ite e' a' b' ∧ e.Corresponds c ρ e' ∧
      a.Corresponds c ρ a' ∧ b.Corresponds c ρ b'
  | .call f args, u => ∃ args', u = .call f args' ∧ CorrespondsAll c ρ args args'

def Term.CorrespondsAll (c : Correspondence) (ρ : Pairing) : List Term → List Term → Prop
  | [], us => us = []
  | t :: ts, us => ∃ u us', us = u :: us' ∧ t.Corresponds c ρ u ∧ CorrespondsAll c ρ ts us'
end

/-- Declarations that correspond, the parameters of a definition included. -/
def Declaration.Corresponds (c : Correspondence) : Declaration → Declaration → Prop
  | .function name inputs output, e => e = .function name inputs output
  | .constant name sort, e => e = .constant name sort
  | .definition name parameters output body, e => ∃ parameters' body',
    e = .definition name parameters' output body' ∧ List.Forall₂ c.binder parameters parameters' ∧
      body.Corresponds c (Pairing.bind [] parameters parameters') body'
  | .variable _ _, _ => False

namespace Script

/-- The declarations at two positions correspond. -/
def Agree (c : Correspondence) (s t : Script) (i j : DeclId) : Prop :=
  ∃ d e, s.arena[i.index]? = some d ∧ t.arena[j.index]? = some e ∧ d.Corresponds c e

/-- The same sorts, functions, constants, definitions and assertions in the
same order. Nothing is said of cardinalities and the names of assertions. -/
structure Corresponds (c : Correspondence) (s t : Script) : Prop where
  sorts : t.sorts.map (fun d => (d.name, d.arity)) = s.sorts.map fun d => (d.name, d.arity)
  functions : List.Forall₂ (Agree c s t) s.functions t.functions
  constants : List.Forall₂ (Agree c s t) s.constants t.constants
  definitions : List.Forall₂ (Agree c s t) s.definitions t.definitions
  assertions : List.Forall₂ (fun a b => a.formula.Corresponds c [] b.formula)
    s.assertions t.assertions

/-! ## Names and positions -/

/-- What a name means in a term. -/
def denote (s : Script) (scope : Reader.Scope) (name : String) : Option Term :=
  if name = "true" then some (.bool true)
  else if name = "false" then some (.bool false)
  else match scope.lookup name with
    | some id => some (.ref id)
    | none => (s.lookup name).map .ref

/-- The names on the left of a pairing, and what they are bound to on the right. -/
def scope (s : Script) (ρ : Pairing) : Reader.Scope := ρ.map fun p => (s.nameOf p.1, p.2)

/-- A term of `t` is what the names of a term of `s` mean in `t`. -/
def byName (s t : Script) : Correspondence where
  binder i j := ∃ name sort, s.arena[i.index]? = some (.variable name sort) ∧
    t.arena[j.index]? = some (.variable name sort)
  ref ρ i u := t.denote (s.scope ρ) (s.nameOf i) = some u

/-- The terms differ in bound variables only. Two references agree if the
innermost binder of either binds both, or if no binder binds either and they
are the declarations of one name. -/
def alpha (s t : Script) : Correspondence where
  binder i j := ∃ name name' sort, s.arena[i.index]? = some (.variable name sort) ∧
    t.arena[j.index]? = some (.variable name' sort)
  ref ρ i u := ∃ j, u = .ref j ∧
    match ρ.find? fun p => p.1 = i ∨ p.2 = j with
    | some p => p = (i, j)
    | none => ∃ name, s.lookup name = some i ∧ t.lookup name = some j

/-- The same script up to the positions of its declarations and the names of
its bound variables. -/
def AlphaEquivalent (s t : Script) : Prop := Corresponds (alpha s t) s t

end Script

/-! ## One correspondence implies another -/

/-- Terms that conform to `u` and correspond as `c` says correspond as `c'`
says. The pairings on the way satisfy `valid`. -/
structure Correspondence.Implies (c c' : Correspondence) (u : Usage) (valid : Pairing → Prop) :
    Prop where
  binder : ∀ {i j}, c.binder i j → c'.binder i j
  ref : ∀ {ρ : Pairing} {i t}, valid ρ → u.ref (ρ.map Prod.fst) i = true → c.ref ρ i t → c'.ref ρ i t
  closed : valid []
  bind : ∀ {ρ : Pairing} {vars vars'}, valid ρ → List.Forall₂ c.binder vars vars' →
    valid (ρ.bind vars vars')

theorem Pairing.map_fst_bind {R : DeclId → DeclId → Prop} {ρ : Pairing} {vars vars' : List DeclId}
    (h : List.Forall₂ R vars vars') :
    (ρ.bind vars vars').map Prod.fst = vars.reverse ++ ρ.map Prod.fst := by
  rw [Pairing.bind, List.map_append, List.map_reverse, List.map_fst_zip h.length_eq.le]

theorem Pairing.mem_bind {ρ : Pairing} {vars vars' : List DeclId} {p : DeclId × DeclId} :
    p ∈ ρ.bind vars vars' ↔ p ∈ vars.zip vars' ∨ p ∈ ρ := by
  rw [Pairing.bind, List.mem_append, List.mem_reverse]

section Implies

variable {c c' : Correspondence} {u : Usage} {valid : Pairing → Prop}

mutual
theorem Term.Corresponds.mono (h : c.Implies c' u valid) : ∀ {t t' : Term} {ρ : Pairing},
    valid ρ → t.conforms u (ρ.map Prod.fst) = true → t.Corresponds c ρ t' → t.Corresponds c' ρ t'
  | .ref id, t', ρ, hρ, hu, ht => by
    rw [conforms] at hu
    rw [Term.Corresponds] at ht ⊢
    exact h.ref hρ hu ht
  | .int _, t', ρ, _, _, ht | .bool _, t', ρ, _, _, ht | .emptySet _, t', ρ, _, _, ht
  | .fullSet _, t', ρ, _, _, ht => by
    rw [Term.Corresponds] at ht ⊢
    exact ht
  | .unary op a, t', ρ, hρ, hu, ht => by
    rw [conforms] at hu
    rw [Term.Corresponds] at ht ⊢
    obtain ⟨a', rfl, ha⟩ := ht
    exact ⟨a', rfl, ha.mono h hρ hu⟩
  | .binary op a b, t', ρ, hρ, hu, ht => by
    rw [conforms, Bool.and_eq_true] at hu
    rw [Term.Corresponds] at ht ⊢
    obtain ⟨a', b', rfl, ha, hb⟩ := ht
    refine ⟨a', b', rfl, ?_, hb.mono h hρ hu.2⟩
    by_cases hop : op = .select
    · -- a column is a number, which corresponds to itself only
      cases a with
      | int n => exact ha
      | _ => simp [hop, isColumn] at hu
    · rw [if_neg hop] at hu
      exact ha.mono h hρ hu.1
  | .nary op args, t', ρ, hρ, hu, ht => by
    rw [conforms, Bool.and_eq_true] at hu
    rw [Term.Corresponds] at ht ⊢
    obtain ⟨args', rfl, hargs⟩ := ht
    exact ⟨args', rfl, Term.CorrespondsAll.mono h hρ hu.2 hargs⟩
  | .quantified q vars body, t', ρ, hρ, hu, ht => by
    rw [conforms, Bool.and_eq_true] at hu
    rw [Term.Corresponds] at ht ⊢
    obtain ⟨vars', body', rfl, hvars, hbody⟩ := ht
    refine ⟨vars', body', rfl, hvars.imp fun _ _ => h.binder, ?_⟩
    refine hbody.mono h (h.bind hρ hvars) ?_
    rw [Pairing.map_fst_bind hvars]
    exact hu.2
  | .ite e a b, t', ρ, hρ, hu, ht => by
    simp only [conforms, Bool.and_eq_true] at hu
    rw [Term.Corresponds] at ht ⊢
    obtain ⟨e', a', b', rfl, he, ha, hb⟩ := ht
    exact ⟨e', a', b', rfl, he.mono h hρ hu.1.1, ha.mono h hρ hu.1.2, hb.mono h hρ hu.2⟩
  | .call f args, t', ρ, hρ, hu, ht => by
    rw [conforms, Bool.and_eq_true] at hu
    rw [Term.Corresponds] at ht ⊢
    obtain ⟨args', rfl, hargs⟩ := ht
    exact ⟨args', rfl, Term.CorrespondsAll.mono h hρ hu.2 hargs⟩

theorem Term.CorrespondsAll.mono (h : c.Implies c' u valid) :
    ∀ {ts ts' : List Term} {ρ : Pairing}, valid ρ →
      Term.conformsAll u (ρ.map Prod.fst) ts = true → Term.CorrespondsAll c ρ ts ts' →
        Term.CorrespondsAll c' ρ ts ts'
  | [], ts', ρ, _, _, ht => by
    rw [Term.CorrespondsAll] at ht ⊢
    exact ht
  | t :: ts, ts', ρ, hρ, hu, ht => by
    rw [conformsAll, Bool.and_eq_true] at hu
    rw [Term.CorrespondsAll] at ht ⊢
    obtain ⟨t', ts'', rfl, ht, hts⟩ := ht
    exact ⟨t', ts'', rfl, ht.mono h hρ hu.1, Term.CorrespondsAll.mono h hρ hu.2 hts⟩
end

theorem Declaration.Corresponds.mono (h : c.Implies c' u valid) : ∀ {d e : Declaration},
    d.conforms u = true → d.Corresponds c e → d.Corresponds c' e
  | .function _ _ _, e, _, hd => hd
  | .constant _ _, e, _, hd => hd
  | .definition name parameters output body, e, hu, hd => by
    rw [conforms, Bool.and_eq_true] at hu
    obtain ⟨parameters', body', rfl, hparameters, hbody⟩ := hd
    refine ⟨parameters', body', rfl, hparameters.imp fun _ _ => h.binder, ?_⟩
    refine hbody.mono h (h.bind h.closed hparameters) ?_
    rw [Pairing.map_fst_bind hparameters, List.map_nil, List.append_nil]
    exact hu.2

theorem Script.Corresponds.mono {s t : Script} {u : Nat → Usage} {label : String → Bool}
    (h : ∀ i, c.Implies c' (u i) valid) (hs : s.conforms u label = true)
    (hst : Script.Corresponds c s t) : Script.Corresponds c' s t := by
  obtain ⟨_, hdecls, hasserts⟩ := Script.conforms_iff.mp hs
  have hagree : ∀ {ids ids'}, (∀ id ∈ ids, id ∈ s.topLevel) →
      List.Forall₂ (Script.Agree c s t) ids ids' → List.Forall₂ (Script.Agree c' s t) ids ids' := by
    intro ids ids' htop hids
    refine ((List.forall₂_and_left _ _).mpr ⟨htop, hids⟩).imp fun i j hij => ?_
    obtain ⟨hi, d, e, hd, he, hde⟩ := hij
    obtain ⟨d', hd', hconf⟩ := hdecls i hi
    rw [hd, Option.some.injEq] at hd'
    subst hd'
    exact ⟨d, e, hd, he, hde.mono (h i.index) hconf⟩
  refine ⟨hst.sorts, hagree ?_ hst.functions, hagree ?_ hst.constants, hagree ?_ hst.definitions, ?_⟩
  · simp +contextual [Script.topLevel]
  · simp +contextual [Script.topLevel]
  · simp +contextual [Script.topLevel]
  · refine ((List.forall₂_and_left _ _).mpr ⟨hasserts, hst.assertions⟩).imp fun a b hab => ?_
    exact hab.2.mono (h s.arena.size) (h s.arena.size).closed hab.1.2

end Implies

/-! ## From names to positions -/

namespace Script

/-- The declaration that a name leads to next to bound variables. -/
def resolve (s : Script) (bound : List DeclId) (name : String) : Option DeclId :=
  match bound.find? fun id => s.nameOf id = name with
  | some id => some id
  | none => s.lookup name

def isLiteral (name : String) : Bool := name = "true" || name = "false"

/-- Every name leads back to the declaration that it is the name of. -/
def faithful (s : Script) : Usage where
  name _ := true
  sort _ := true
  binder _ := true
  ref bound id := !isLiteral (s.nameOf id) && decide (s.resolve bound (s.nameOf id) = some id)
  call _ _ := true

variable {s t : Script}

theorem lookup_scope (ρ : Pairing) (name : String) :
    (s.scope ρ).lookup name = (ρ.find? fun p => s.nameOf p.1 = name).map Prod.snd := by
  induction ρ with
  | nil => rfl
  | cons p ρ ih =>
    rw [scope, List.map_cons, List.lookup_cons, List.find?_cons]
    by_cases hp : s.nameOf p.1 = name
    · simp [hp]
    · have hne : (name == s.nameOf p.1) = false := beq_eq_false_iff_ne.mpr fun h => hp h.symm
      rw [hne, decide_eq_false hp]
      exact ih

theorem denote_eq {scope : Reader.Scope} {name : String} (h : isLiteral name = false) :
    s.denote scope name = ((scope.lookup name).or (s.lookup name)).map .ref := by
  simp only [isLiteral, Bool.or_eq_false_iff, decide_eq_false_iff_not] at h
  rw [denote, if_neg h.1, if_neg h.2]
  cases scope.lookup name <;> rfl

/-- Bound variables keep their names and sorts. -/
def Pairs (s t : Script) (ρ : Pairing) : Prop := ∀ p ∈ ρ, (byName s t).binder p.1 p.2

theorem pairs_nil (s t : Script) : s.Pairs t [] := fun _ h => nomatch h

theorem Pairs.nameOf {ρ : Pairing} (h : s.Pairs t ρ) {p : DeclId × DeclId} (hp : p ∈ ρ) :
    s.nameOf p.1 = t.nameOf p.2 := by
  obtain ⟨name, sort, hi, hj⟩ := h p hp
  rw [nameOf_eq hi, nameOf_eq hj]

theorem Pairs.bind {ρ : Pairing} {vars vars' : List DeclId} (h : s.Pairs t ρ)
    (hvars : List.Forall₂ (byName s t).binder vars vars') : s.Pairs t (ρ.bind vars vars') := by
  intro p hp
  rcases Pairing.mem_bind.mp hp with hp | hp
  · exact (List.forall₂_iff_zip.mp hvars).2 hp
  · exact h p hp

theorem nameOf_lookup (hc : s.Coherent) {name : String} {id : DeclId}
    (h : s.lookup name = some id) : s.nameOf id = name := by
  obtain ⟨d, hd, hname, _⟩ := hc.lookup.mp h
  rw [nameOf_eq hd, hname]

/-- A name that leads to `i` by its own binder or declaration leads to what
agrees with `i`. -/
theorem alpha_ref_of_byName (hc : t.Coherent) {ρ : Pairing} {i : DeclId} {u : Term}
    (hρ : s.Pairs t ρ) (hi : s.faithful.ref (ρ.map Prod.fst) i = true)
    (h : (byName s t).ref ρ i u) : (alpha s t).ref ρ i u := by
  simp only [faithful, Bool.and_eq_true, Bool.not_eq_true', decide_eq_true_eq] at hi
  obtain ⟨hliteral, hresolve⟩ := hi
  change t.denote (s.scope ρ) (s.nameOf i) = some u at h
  rw [denote_eq hliteral, lookup_scope] at h
  rw [resolve, List.find?_map] at hresolve
  simp only [Function.comp_def] at hresolve
  cases hfind : ρ.find? fun p => decide (s.nameOf p.1 = s.nameOf i) with
  | some p =>
    rw [hfind] at h hresolve
    obtain rfl : p.1 = i := Option.some.inj hresolve
    refine ⟨p.2, (Option.some.inj h).symm, ?_⟩
    -- before that binder none has the name, hence none binds either of the two
    obtain ⟨_, before, after, rfl, hbefore⟩ := List.find?_eq_some_iff_append.mp hfind
    have hfirst : (before ++ p :: after).find? (fun q => q.1 = p.1 ∨ q.2 = p.2) = some p := by
      refine List.find?_eq_some_iff_append.mpr ⟨by simp, before, after, rfl, fun q hq => ?_⟩
      have hname := hbefore q hq
      simp only [Bool.not_eq_true', decide_eq_false_iff_not, not_or] at hname ⊢
      refine ⟨fun h => hname (by rw [h]), fun h => hname ?_⟩
      rw [hρ.nameOf (p := q) (by simp [hq]), h, hρ.nameOf (p := p) (by simp)]
    rw [hfirst]
  | none =>
    rw [hfind] at h hresolve
    obtain ⟨j, hj, rfl⟩ := Option.map_eq_some_iff.mp h
    have hnone : ρ.find? (fun q => q.1 = i ∨ q.2 = j) = none := by
      rw [List.find?_eq_none] at hfind ⊢
      intro q hq hq'
      simp only [decide_eq_true_eq] at hq'
      refine hfind q hq (decide_eq_true_eq.mpr ?_)
      rcases hq' with rfl | rfl
      · rfl
      · rw [hρ.nameOf hq, nameOf_lookup hc hj]
    refine ⟨j, rfl, ?_⟩
    rw [hnone]
    exact ⟨s.nameOf i, hresolve, hj⟩

theorem alpha_of_byName (hc : t.Coherent) :
    (byName s t).Implies (alpha s t) s.faithful (s.Pairs t) where
  binder := fun ⟨name, sort, hi, hj⟩ => ⟨name, name, sort, hi, hj⟩
  ref hρ hi h := alpha_ref_of_byName hc hρ hi h
  closed := pairs_nil s t
  bind hρ hvars := hρ.bind hvars

theorem alphaEquivalent_of_byName {label : String → Bool} (hc : t.Coherent)
    (hs : s.conforms (fun _ => s.faithful) label = true) (h : Corresponds (byName s t) s t) :
    s.AlphaEquivalent t :=
  h.mono (fun _ => alpha_of_byName hc) hs

end Script

end TupleLogic
