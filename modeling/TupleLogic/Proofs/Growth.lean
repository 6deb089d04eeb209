import TupleLogic.Proofs.Edits

/-! Scripts that grow. Declarations are never removed or renamed, so what a
position or a name stands for in a script it also stands for in every script
that extends it. -/

namespace TupleLogic

/-! ## Results that are not errors -/

theorem bind_eq_ok {ε α β : Type} {x : Except ε α} {f : α → Except ε β} {b : β} :
    x >>= f = .ok b ↔ ∃ a, x = .ok a ∧ f a = .ok b := by
  cases x with
  | error e => exact ⟨nofun, fun ⟨_, h, _⟩ => nomatch h⟩
  | ok a => exact ⟨fun h => ⟨a, rfl, h⟩, fun ⟨_, h, hf⟩ => Except.ok.inj h ▸ hf⟩

theorem pure_eq_ok {ε α : Type} {a b : α} : (pure a : Except ε α) = .ok b ↔ a = b :=
  Except.ok.injEq a b ▸ Iff.rfl

/-- What runs after a check that throws. -/
theorem checked_eq_ok {ε α : Type} {c : Prop} [Decidable c] {e : ε} {k : Unit → Except ε α} {b : α} :
    (if c then throw e >>= k else k ()) = .ok b ↔ ¬ c ∧ k () = .ok b := by
  split
  · rename_i hc
    exact ⟨nofun, fun h => absurd hc h.1⟩
  · rename_i hc
    exact ⟨fun h => ⟨hc, h⟩, fun h => h.2⟩

namespace Script

variable {s t u : Script}

/-! ## Extension -/

/-- Every declaration of `s` is in `t`, at the same position and under the
same name. -/
structure Extends (s t : Script) : Prop where
  decl : ∀ {i : Nat} {d : Declaration}, s.arena[i]? = some d → t.arena[i]? = some d
  lookup : ∀ {f : String} {id : DeclId}, s.lookup f = some id → t.lookup f = some id

theorem Extends.refl (s : Script) : s.Extends s := ⟨id, id⟩

theorem Extends.trans (h : s.Extends t) (h' : t.Extends u) : s.Extends u :=
  ⟨fun hd => h'.decl (h.decl hd), fun hl => h'.lookup (h.lookup hl)⟩

theorem Extends.size_le (h : s.Extends t) : s.arena.size ≤ t.arena.size := by
  rcases Nat.lt_or_ge t.arena.size s.arena.size with hlt | hle
  · have hs : s.arena[t.arena.size]? = some s.arena[t.arena.size] :=
      Array.getElem?_eq_getElem hlt
    simpa using h.decl hs
  · exact hle

/-- `t` is `s` with more bound variables. -/
structure AddsVariables (s t : Script) : Prop where
  extension : s.Extends t
  same : t = { s with arena := t.arena }
  fresh : ∀ {i : Nat} {d : Declaration}, t.arena[i]? = some d → s.arena.size ≤ i →
    ∃ name sort, d = .variable name sort

theorem AddsVariables.index (h : s.AddsVariables t) : t.index = s.index := by
  rw [h.same]

theorem AddsVariables.assertions (h : s.AddsVariables t) : t.assertions = s.assertions := by
  rw [h.same]

theorem AddsVariables.refl (s : Script) : s.AddsVariables s := by
  refine ⟨.refl s, rfl, fun {i d} hd hi => ?_⟩
  rw [Array.getElem?_eq_none hi] at hd
  cases hd

theorem AddsVariables.trans (h : s.AddsVariables t) (h' : t.AddsVariables u) :
    s.AddsVariables u := by
  refine ⟨h.extension.trans h'.extension, ?_, fun {i d} hd hi => ?_⟩
  · rw [h'.same, h.same]
  by_cases hlt : i < t.arena.size
  · have ht : t.arena[i]? = some t.arena[i] := Array.getElem?_eq_getElem hlt
    have he := h'.extension.decl ht
    rw [hd, Option.some.injEq] at he
    exact he ▸ h.fresh ht hi
  · exact h'.fresh hd (Nat.not_lt.mp hlt)

/-- A declaration at the end disturbs none before it. -/
theorem getElem?_push {d e : Declaration} {i : Nat} (h : s.arena[i]? = some d) :
    (s.arena.push e)[i]? = some d := by
  rw [Array.getElem?_push, if_neg, h]
  intro hi
  rw [hi, Array.getElem?_eq_none (Nat.le_refl _)] at h
  cases h

theorem addVariable_getElem? (s : Script) (name : String) (sort : TermSort) :
    (s.addVariable name sort).2.arena[s.arena.size]? = some (.variable name sort) :=
  Array.getElem?_push_size

theorem addsVariables_addVariable (s : Script) (name : String) (sort : TermSort) :
    s.AddsVariables (s.addVariable name sort).2 := by
  refine ⟨⟨getElem?_push, id⟩, rfl, fun {i d} hd hi => ?_⟩
  change (s.arena.push (.variable name sort))[i]? = some d at hd
  rw [Array.getElem?_push] at hd
  split at hd
  · exact ⟨name, sort, (Option.some.inj hd).symm⟩
  · rw [Array.getElem?_eq_none hi] at hd
    cases hd

theorem extends_addAssertion (s : Script) (name : Option String) (formula : Term) :
    s.Extends (s.addAssertion name formula) := ⟨id, id⟩

/-- `t` has the declarations of `s`, and its assertions before all others. -/
structure Continues (s t : Script) : Prop where
  extension : s.Extends t
  assertions : s.assertions <+: t.assertions

theorem Continues.refl (s : Script) : s.Continues s := ⟨.refl s, List.prefix_rfl⟩

theorem Continues.trans (h : s.Continues t) (h' : t.Continues u) : s.Continues u :=
  ⟨h.extension.trans h'.extension, h.assertions.trans h'.assertions⟩

theorem AddsVariables.continues (h : s.AddsVariables t) : s.Continues t :=
  ⟨h.extension, h.assertions ▸ List.prefix_rfl⟩

theorem continues_addAssertion (s : Script) (name : Option String) (formula : Term) :
    s.Continues (s.addAssertion name formula) :=
  ⟨s.extends_addAssertion name formula, List.prefix_append _ _⟩

/-- Sorts are apart from declarations. -/
theorem continues_sorts (s : Script) (sorts : List SortDeclaration) :
    s.Continues { s with sorts } :=
  ⟨⟨id, id⟩, List.prefix_rfl⟩

/-! ## Sorts -/

theorem declareSort_eq (s : Script) (name : String) (arity : Nat) : s.declareSort name arity = do
    s.checkSortFree name
    return { s with sorts := s.sorts ++ [⟨name, arity, none⟩] } := by
  rw [declareSort, Edit.declareSort, Edit.outcome_require_bind]
  cases s.checkSortFree name <;> rfl

theorem declareSort_eq_ok {name : String} {arity : Nat} : s.declareSort name arity = .ok t ↔
    s.sortDeclaration? name = none ∧ { s with sorts := s.sorts ++ [⟨name, arity, none⟩] } = t := by
  rw [declareSort_eq, checkSortFree]
  cases s.sortDeclaration? name with
  | some d => exact ⟨nofun, nofun⟩
  | none => exact pure_eq_ok.trans (and_iff_right rfl).symm

theorem setCardinality_eq (s : Script) (name : String) (count : Nat) :
    s.setCardinality name count = do
      s.checkSortKnown name
      return { s with sorts := s.sorts.map fun d =>
        if d.name = name then { d with cardinality := some count } else d } := by
  rw [setCardinality, Edit.setCardinality, Edit.outcome_require_bind]
  cases s.checkSortKnown name <;> rfl

theorem setCardinality_eq_ok {name : String} {count : Nat} : s.setCardinality name count = .ok t ↔
    s.sortDeclaration? name ≠ none ∧ { s with sorts := s.sorts.map fun d =>
      if d.name = name then { d with cardinality := some count } else d } = t := by
  rw [setCardinality_eq, checkSortKnown]
  cases s.sortDeclaration? name with
  | none => exact ⟨nofun, fun h => absurd rfl h.1⟩
  | some d => exact pure_eq_ok.trans (and_iff_right nofun).symm

/-! ## Declarations -/

/-- The script with a declaration under its name. -/
def register (s : Script) (d : Declaration) : Script :=
  { s with arena := s.arena.push d, index := (d.name, s.nextId) :: s.index }

theorem extends_register {d : Declaration} (h : s.lookup d.name = none) :
    s.Extends (s.register d) := by
  refine ⟨getElem?_push, fun {f id} hl => ?_⟩
  change List.lookup f ((d.name, s.nextId) :: s.index) = some id
  rw [List.lookup_cons]
  split
  · rename_i hf
    rw [beq_iff_eq] at hf
    rw [hf, h] at hl
    cases hl
  · exact hl

/-- What runs once the name is known to be free. -/
theorem checkFresh_bind_eq_ok {α : Type} {command : NamingCommand} {name : String}
    {k : Unit → Except TermError α} {a : α} :
    s.checkFresh command name >>= k = .ok a ↔ s.lookup name = none ∧ k () = .ok a := by
  unfold checkFresh
  cases s.lookup name with
  | some id => exact ⟨nofun, nofun⟩
  | none => exact ⟨fun h => ⟨rfl, h⟩, fun h => h.2⟩

theorem checkFresh_taken {command : NamingCommand} {name : String} {id : DeclId}
    (h : s.lookup name = some id) :
    s.checkFresh command name = .error (.malformed (.nameTaken command name)) := by
  rw [checkFresh, h]

theorem declareFunction_eq (s : Script) (name : String) (inputs : List TermSort)
    (output : TermSort) : s.declareFunction name inputs output = do
      s.checkFresh .declareFunction name
      return (s.nextId, { s.register (.function name inputs output) with
        functions := s.functions ++ [s.nextId] }) := by
  rw [declareFunction, Edit.declareFunction, Edit.outcome_require_bind]
  rfl

theorem declareFunction_taken {name : String} {inputs : List TermSort} {output : TermSort}
    {id : DeclId} (h : s.lookup name = some id) :
    s.declareFunction name inputs output =
      .error (.malformed (.nameTaken .declareFunction name)) := by
  rw [declareFunction_eq, checkFresh_taken h]
  rfl

theorem declareFunction_eq_ok {name : String} {inputs : List TermSort} {output : TermSort}
    {id : DeclId} : s.declareFunction name inputs output = .ok (id, t) ↔
      s.lookup name = none ∧ s.nextId = id ∧
        { s.register (.function name inputs output) with
          functions := s.functions ++ [s.nextId] } = t := by
  rw [declareFunction_eq, checkFresh_bind_eq_ok]
  exact and_congr_right fun _ => pure_eq_ok.trans (Prod.mk.injEq _ _ _ _ ▸ Iff.rfl)

theorem declareConstant_eq (s : Script) (name : String) (sort : TermSort) :
    s.declareConstant name sort = do
      s.checkFresh .declareConstant name
      return (s.nextId, { s.register (.constant name sort) with
        constants := s.constants ++ [s.nextId] }) := by
  rw [declareConstant, Edit.declareConstant, Edit.outcome_require_bind]
  rfl

theorem declareConstant_taken {name : String} {sort : TermSort} {id : DeclId}
    (h : s.lookup name = some id) :
    s.declareConstant name sort = .error (.malformed (.nameTaken .declareConstant name)) := by
  rw [declareConstant_eq, checkFresh_taken h]
  rfl

theorem declareConstant_eq_ok {name : String} {sort : TermSort} {id : DeclId} :
    s.declareConstant name sort = .ok (id, t) ↔
      s.lookup name = none ∧ s.nextId = id ∧
        { s.register (.constant name sort) with constants := s.constants ++ [s.nextId] } = t := by
  rw [declareConstant_eq, checkFresh_bind_eq_ok]
  exact and_congr_right fun _ => pure_eq_ok.trans (Prod.mk.injEq _ _ _ _ ▸ Iff.rfl)

theorem checkParameters_bind_eq_ok {α : Type} {function : String} {ids : List DeclId}
    {k : Unit → Except TermError α} {a : α} :
    s.checkParameters function ids >>= k = .ok a ↔
      (∀ id ∈ ids, ∃ name sort, s.arena[id.index]? = some (.variable name sort)) ∧
        k () = .ok a := by
  induction ids with
  | nil => exact ⟨fun h => ⟨nofun, h⟩, fun h => h.2⟩
  | cons id ids ih =>
    rw [List.forall_mem_cons, and_assoc, ← ih, checkParameters, decl]
    cases hd : s.arena[id.index]? with
    | none => exact ⟨nofun, fun ⟨⟨_, _, h⟩, _⟩ => nomatch h⟩
    | some d =>
      rcases d with _ | _ | _ | ⟨name, sort⟩
      · exact ⟨nofun, fun ⟨⟨_, _, h⟩, _⟩ => nomatch h⟩
      · exact ⟨nofun, fun ⟨⟨_, _, h⟩, _⟩ => nomatch h⟩
      · exact ⟨nofun, fun ⟨⟨_, _, h⟩, _⟩ => nomatch h⟩
      · exact ⟨fun h => ⟨⟨name, sort, rfl⟩, h⟩, fun h => h.2⟩

theorem defineFunction_eq (s : Script) (name : String) (parameters : List DeclId)
    (output : TermSort) (body : Term) : s.defineFunction name parameters output body = do
      s.checkFresh .defineFunction name
      s.checkParameters name parameters
      return (s.nextId, { s.register (.definition name parameters output body) with
        definitions := s.definitions ++ [s.nextId] }) := by
  rw [defineFunction, Edit.defineFunction, Edit.outcome_require_bind]
  refine congrArg (s.checkFresh .defineFunction name >>= ·) (funext fun _ => ?_)
  rw [Edit.outcome_require_bind]
  rfl

theorem defineFunction_eq_ok {name : String} {parameters : List DeclId} {output : TermSort}
    {body : Term} {id : DeclId} : s.defineFunction name parameters output body = .ok (id, t) ↔
      s.lookup name = none ∧
        (∀ p ∈ parameters, ∃ name sort, s.arena[p.index]? = some (.variable name sort)) ∧
        s.nextId = id ∧
        { s.register (.definition name parameters output body) with
          definitions := s.definitions ++ [s.nextId] } = t := by
  rw [defineFunction_eq, checkFresh_bind_eq_ok, checkParameters_bind_eq_ok]
  exact and_congr_right fun _ => and_congr_right fun _ =>
    pure_eq_ok.trans (Prod.mk.injEq _ _ _ _ ▸ Iff.rfl)

end Script

end TupleLogic
