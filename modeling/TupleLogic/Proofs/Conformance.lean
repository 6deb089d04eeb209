import TupleLogic.Proofs.Representation
import TupleLogic.Proofs.ScriptForms

/-! What terms may use. A usage says which names, sorts, bound variables,
references and calls are allowed; a term conforms to it if all that it uses is
allowed and every operator has as many operands as it is read with. Printing
and reading each ask for a usage of their own, and one that asks for more than
another implies it for whole scripts. -/

namespace TupleLogic

/-- A reference is judged next to the variables that are bound around it,
innermost first, and a call next to its operands. -/
structure Usage where
  name : String → Bool
  sort : TermSort → Bool
  binder : DeclId → Bool
  ref : List DeclId → DeclId → Bool
  call : String → List Term → Bool

/-- The fewest operands that an operator is read with. -/
def NaryOp.fewest : NaryOp → Nat
  | .and | .or | .tuple => 1
  | .distinct | .insert => 2

namespace Term

/-- A number that fits into the head of a selection. -/
def isColumn : Term → Bool
  | .int n => decide (0 ≤ n) && Text.fitsUnsigned32 n.natAbs
  | _ => false

mutual
def conforms (u : Usage) (bound : List DeclId) : Term → Bool
  | .ref id => u.ref bound id
  | .int n => Text.fitsSigned64 n
  | .bool _ => true
  | .emptySet sort | .fullSet sort => sort.isSet && u.sort sort
  | .unary _ a => conforms u bound a
  | .binary op a b =>
    (if op = .select then a.isColumn else conforms u bound a) && conforms u bound b
  | .nary op args => decide (op.fewest ≤ args.length) && conformsAll u bound args
  | .quantified _ vars body =>
    !vars.isEmpty && vars.all u.binder && conforms u (vars.reverse ++ bound) body
  | .ite c a b => conforms u bound c && conforms u bound a && conforms u bound b
  | .call f args => u.call f args && !args.isEmpty && conformsAll u bound args

def conformsAll (u : Usage) (bound : List DeclId) : List Term → Bool
  | [] => true
  | t :: ts => conforms u bound t && conformsAll u bound ts
end

theorem conformsAll_iff {u : Usage} {bound : List DeclId} {ts : List Term} :
    conformsAll u bound ts = true ↔ ∀ t ∈ ts, conforms u bound t = true := by
  induction ts with
  | nil => simp [conformsAll]
  | cons t ts ih => rw [conformsAll, Bool.and_eq_true, ih, List.forall_mem_cons]

end Term

def Declaration.conforms (u : Usage) : Declaration → Bool
  | .function name inputs output => u.name name && inputs.all u.sort && u.sort output
  | .constant name sort => u.name name && u.sort sort
  | .definition name parameters output body =>
    u.name name && parameters.all u.binder && u.sort output && body.conforms u parameters.reverse
  | .variable _ _ => false

namespace Script

/-- The declarations that have names of their own, in the order of print. -/
def topLevel (s : Script) : List DeclId := s.functions ++ s.constants ++ s.definitions

/-- What stands before the definition at `limit` in print: functions,
constants, and the definitions before it. -/
def precedes (s : Script) (limit : Nat) (id : DeclId) : Bool :=
  match s.arena[id.index]? with
  | some (.function ..) | some (.constant ..) => true
  | some (.definition ..) => decide (id.index < limit)
  | _ => false

/-- Every declaration and assertion conforms to the usage at its position;
assertions come after all declarations. -/
def conforms (s : Script) (u : Nat → Usage) (label : String → Bool) : Bool :=
  (s.sorts.all fun d => (u 0).name d.name && Text.fitsUnsigned32 d.arity) &&
    (s.topLevel.all fun id => (s.arena[id.index]?).any (·.conforms (u id.index))) &&
    (s.assertions.all fun a => a.name.all label && a.formula.conforms (u s.arena.size) [])

end Script

/-! ## One usage implies another -/

/-- Whatever `u` allows, `v` allows. References may be judged next to other
bound variables, as long as these are related to the first ones. -/
structure Usage.Implies (u v : Usage) (related : List DeclId → List DeclId → Prop) : Prop where
  name : ∀ {n}, u.name n = true → v.name n = true
  sort : ∀ {sort}, u.sort sort = true → v.sort sort = true
  binder : ∀ {id}, u.binder id = true → v.binder id = true
  ref : ∀ {bound bound' id}, related bound bound' → u.ref bound id = true → v.ref bound' id = true
  call : ∀ {f args}, u.call f args = true → v.call f args = true
  closed : related [] []
  enter : ∀ {bound bound' vars : List DeclId}, related bound bound' → (∀ id ∈ vars, u.binder id = true) →
    related (vars.reverse ++ bound) (vars.reverse ++ bound')

/-- The same variables are bound, and all of them are allowed. -/
def Usage.Binds (u : Usage) (bound bound' : List DeclId) : Prop :=
  bound = bound' ∧ ∀ id ∈ bound, u.binder id = true

theorem Usage.binds_nil (u : Usage) : u.Binds [] [] := ⟨rfl, nofun⟩

theorem Usage.Binds.enter {u : Usage} {bound bound' vars : List DeclId} (h : u.Binds bound bound')
    (hvars : ∀ id ∈ vars, u.binder id = true) :
    u.Binds (vars.reverse ++ bound) (vars.reverse ++ bound') := by
  refine ⟨by rw [h.1], fun id hid => ?_⟩
  rcases List.mem_append.mp hid with hid | hid
  · exact hvars id (List.mem_reverse.mp hid)
  · exact h.2 id hid

section Implies

variable {u v : Usage} {related : List DeclId → List DeclId → Prop}

mutual
theorem Term.conforms_mono (h : u.Implies v related) : ∀ {t : Term} {bound bound' : List DeclId},
    related bound bound' → t.conforms u bound = true → t.conforms v bound' = true
  | .ref id, bound, bound', hb, ht => by
    rw [conforms] at ht ⊢
    exact h.ref hb ht
  | .int n, bound, bound', _, ht => ht
  | .bool b, bound, bound', _, _ => rfl
  | .emptySet sort, bound, bound', _, ht => by
    rw [conforms, Bool.and_eq_true] at ht ⊢
    exact ⟨ht.1, h.sort ht.2⟩
  | .fullSet sort, bound, bound', _, ht => by
    rw [conforms, Bool.and_eq_true] at ht ⊢
    exact ⟨ht.1, h.sort ht.2⟩
  | .unary op a, bound, bound', hb, ht => by
    rw [conforms] at ht ⊢
    exact conforms_mono h hb ht
  | .binary op a b, bound, bound', hb, ht => by
    rw [conforms, Bool.and_eq_true] at ht ⊢
    refine ⟨?_, conforms_mono h hb ht.2⟩
    by_cases hop : op = .select
    · rw [if_pos hop] at ht ⊢
      exact ht.1
    · rw [if_neg hop] at ht ⊢
      exact conforms_mono h hb ht.1
  | .nary op args, bound, bound', hb, ht => by
    rw [conforms, Bool.and_eq_true] at ht ⊢
    exact ⟨ht.1, conformsAll_mono h hb ht.2⟩
  | .quantified q vars body, bound, bound', hb, ht => by
    simp only [conforms, Bool.and_eq_true, List.all_eq_true] at ht ⊢
    obtain ⟨⟨hne, hvars⟩, hbody⟩ := ht
    exact ⟨⟨hne, fun id hid => h.binder (hvars id hid)⟩,
      conforms_mono h (h.enter hb hvars) hbody⟩
  | .ite c a b, bound, bound', hb, ht => by
    simp only [conforms, Bool.and_eq_true] at ht ⊢
    exact ⟨⟨conforms_mono h hb ht.1.1, conforms_mono h hb ht.1.2⟩, conforms_mono h hb ht.2⟩
  | .call f args, bound, bound', hb, ht => by
    simp only [conforms, Bool.and_eq_true] at ht ⊢
    exact ⟨⟨h.call ht.1.1, ht.1.2⟩, conformsAll_mono h hb ht.2⟩

theorem Term.conformsAll_mono (h : u.Implies v related) :
    ∀ {ts : List Term} {bound bound' : List DeclId}, related bound bound' →
      Term.conformsAll u bound ts = true → Term.conformsAll v bound' ts = true
  | [], bound, bound', _, _ => rfl
  | t :: ts, bound, bound', hb, ht => by
    rw [conformsAll, Bool.and_eq_true] at ht ⊢
    exact ⟨conforms_mono h hb ht.1, conformsAll_mono h hb ht.2⟩
end

theorem Declaration.conforms_mono (h : u.Implies v related) : ∀ {d : Declaration},
    d.conforms u = true → d.conforms v = true
  | .function name inputs output, hd => by
    simp only [conforms, Bool.and_eq_true, List.all_eq_true] at hd ⊢
    exact ⟨⟨h.name hd.1.1, fun i hi => h.sort (hd.1.2 i hi)⟩, h.sort hd.2⟩
  | .constant name sort, hd => by
    rw [conforms, Bool.and_eq_true] at hd ⊢
    exact ⟨h.name hd.1, h.sort hd.2⟩
  | .definition name parameters output body, hd => by
    simp only [conforms, Bool.and_eq_true, List.all_eq_true] at hd ⊢
    obtain ⟨⟨⟨hname, hparameters⟩, houtput⟩, hbody⟩ := hd
    have hscope : related parameters.reverse parameters.reverse := by
      simpa using h.enter h.closed hparameters
    exact ⟨⟨⟨h.name hname, fun p hp => h.binder (hparameters p hp)⟩, h.sort houtput⟩,
      Term.conforms_mono h hscope hbody⟩

end Implies

namespace Script

variable {s : Script} {u : Nat → Usage} {label : String → Bool}

theorem conforms_iff : s.conforms u label = true ↔
    (∀ d ∈ s.sorts, (u 0).name d.name = true ∧ Text.fitsUnsigned32 d.arity = true) ∧
    (∀ id ∈ s.topLevel, ∃ d, s.arena[id.index]? = some d ∧ d.conforms (u id.index) = true) ∧
    ∀ a ∈ s.assertions, (∀ n, a.name = some n → label n = true) ∧
      a.formula.conforms (u s.arena.size) [] = true := by
  simp only [conforms, Bool.and_eq_true, List.all_eq_true, Option.any_eq_true, Option.all_eq_true,
    and_assoc]

theorem conforms_mono {v : Nat → Usage} {label' : String → Bool}
    {related : Nat → List DeclId → List DeclId → Prop}
    (h : ∀ i, (u i).Implies (v i) (related i))
    (hlabel : ∀ n, label n = true → label' n = true) (hs : s.conforms u label = true) :
    s.conforms v label' = true := by
  rw [conforms_iff] at hs ⊢
  obtain ⟨hsorts, hdecls, hasserts⟩ := hs
  refine ⟨fun d hd => ⟨(h 0).name (hsorts d hd).1, (hsorts d hd).2⟩, fun id hid => ?_,
    fun a ha => ⟨fun n hn => hlabel n ((hasserts a ha).1 n hn), ?_⟩⟩
  · obtain ⟨d, hd, hconf⟩ := hdecls id hid
    exact ⟨d, hd, Declaration.conforms_mono (h id.index) hconf⟩
  · exact Term.conforms_mono (h s.arena.size) (h s.arena.size).closed (hasserts a ha).2

/-! ## Machine words -/

theorem fitsSigned64_of_isColumn {t : Term} (h : t.isColumn = true) : intsFit t = true := by
  unfold Term.isColumn at h
  split at h
  · simp only [Text.fitsUnsigned32, Bool.and_eq_true, decide_eq_true_eq] at h
    simp only [intsFit, Text.fitsSigned64, Bool.and_eq_true, decide_eq_true_eq]
    omega
  · cases h

mutual
theorem intsFit_of_conforms {u : Usage} : ∀ {t : Term} {bound : List DeclId},
    t.conforms u bound = true → intsFit t = true
  | .ref _, _, _ | .bool _, _, _ | .emptySet _, _, _ | .fullSet _, _, _ => rfl
  | .int n, bound, h => h
  | .unary op a, bound, h => by
    rw [Term.conforms] at h
    rw [intsFit, intsFit_of_conforms h]
  | .binary op a b, bound, h => by
    rw [Term.conforms, Bool.and_eq_true] at h
    rw [intsFit, intsFit_of_conforms h.2, Bool.and_true]
    by_cases hop : op = .select
    · rw [if_pos hop] at h
      exact fitsSigned64_of_isColumn h.1
    · rw [if_neg hop] at h
      exact intsFit_of_conforms h.1
  | .nary op args, bound, h => by
    rw [Term.conforms, Bool.and_eq_true] at h
    rw [intsFit, intsFitAll_of_conforms h.2]
  | .quantified q vars body, bound, h => by
    rw [Term.conforms, Bool.and_eq_true] at h
    rw [intsFit, intsFit_of_conforms h.2]
  | .ite c a b, bound, h => by
    simp only [Term.conforms, Bool.and_eq_true] at h
    rw [intsFit, intsFit_of_conforms h.1.1, intsFit_of_conforms h.1.2, intsFit_of_conforms h.2]
    rfl
  | .call f args, bound, h => by
    rw [Term.conforms, Bool.and_eq_true] at h
    rw [intsFit, intsFitAll_of_conforms h.2]

theorem intsFitAll_of_conforms {u : Usage} : ∀ {ts : List Term} {bound : List DeclId},
    Term.conformsAll u bound ts = true → intsFitAll ts = true
  | [], bound, _ => rfl
  | t :: ts, bound, h => by
    rw [Term.conformsAll, Bool.and_eq_true] at h
    rw [intsFitAll, intsFit_of_conforms h.1, intsFitAll_of_conforms h.2]
    rfl
end

theorem mem_topLevel (hc : s.Coherent) {id : DeclId} :
    id ∈ s.topLevel ↔ ∃ d, s.arena[id.index]? = some d ∧ d.kind ≠ .variable := by
  rw [topLevel, hc.functions, hc.constants, hc.definitions, List.mem_append, List.mem_append,
    mem_entries, mem_entries, mem_entries]
  constructor
  · rintro ((⟨d, hd, hk⟩ | ⟨d, hd, hk⟩) | ⟨d, hd, hk⟩)
    all_goals exact ⟨d, hd, by simp [hk]⟩
  · rintro ⟨d, hd, hk⟩
    cases hkind : d.kind <;> simp_all

theorem wordsFit_of_conforms (hc : s.Coherent) (h : s.conforms u label = true) : s.WordsFit := by
  obtain ⟨hsorts, hdecls, hasserts⟩ := conforms_iff.mp h
  refine ⟨fun d hd => (hsorts d hd).2, fun {id name ps output body} hd => ?_,
    fun a ha => intsFit_of_conforms (hasserts a ha).2⟩
  obtain ⟨d, hd', hconf⟩ := hdecls id ((mem_topLevel hc).mpr ⟨_, hd, nofun⟩)
  rw [hd, Option.some.injEq] at hd'
  subst hd'
  rw [Declaration.conforms, Bool.and_eq_true] at hconf
  exact intsFit_of_conforms hconf.2

end Script

end TupleLogic
