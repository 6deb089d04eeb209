import TupleLogic.Proofs.ScriptReading

/-! Scripts made by commands, whatever these are and in whatever order. A
command that is refused leaves the script as it was, so a run goes on after it.
After any run the lists, the index and the arena tell the same story: every
name leads to its own declaration, every declaration that is no variable is in
the one list of its kind, and definitions take variables only. -/

namespace TupleLogic

inductive Command where
  | declareSort (name : String) (arity : Nat)
  | setCardinality (name : String) (count : Nat)
  | declareFunction (name : String) (inputs : List TermSort) (output : TermSort)
  | declareConstant (name : String) (sort : TermSort)
  | defineFunction (name : String) (parameters : List DeclId) (output : TermSort) (body : Term)
  | addVariable (name : String) (sort : TermSort)
  | addAssertion (name : Option String) (formula : Term)

/-- The work that a command asks for. Declarations answer with their position. -/
def Command.work : Command → Script.Edit (Option DeclId)
  | .declareSort name arity => (fun _ => none) <$> Script.Edit.declareSort name arity
  | .setCardinality name count => (fun _ => none) <$> Script.Edit.setCardinality name count
  | .declareFunction name inputs output => some <$> Script.Edit.declareFunction name inputs output
  | .declareConstant name sort => some <$> Script.Edit.declareConstant name sort
  | .defineFunction name parameters output body =>
    some <$> Script.Edit.defineFunction name parameters output body
  | .addVariable name sort => some <$> modifyGet (·.addVariable name sort)
  | .addAssertion name formula => (fun _ => none) <$> modify (·.addAssertion name formula)

namespace Script

/-- What a command answers and the script that it makes. -/
def execute (s : Script) (c : Command) : Except TermError (Option DeclId × Script) :=
  c.work.outcome s

/-- The script that a command leaves behind, be it carried out or refused. -/
def after (s : Script) (c : Command) : Script := (c.work.run.run s).2

def afterAll (s : Script) (cs : List Command) : Script := cs.foldl after s

variable {s t : Script} {c : Command}

/-! ## What a command makes -/

theorem map_eq_ok {α β : Type} {x : Except TermError α} {f : α → β} {b : β} :
    x.map f = .ok b ↔ ∃ a, x = .ok a ∧ f a = b := by
  cases x with
  | error e => exact ⟨nofun, fun ⟨_, h, _⟩ => nomatch h⟩
  | ok a => simp [Except.map]

theorem execute_eq (s : Script) (c : Command) : s.execute c =
    match c with
    | .declareSort name arity => (s.declareSort name arity).map (none, ·)
    | .setCardinality name count => (s.setCardinality name count).map (none, ·)
    | .declareFunction name inputs output =>
      (s.declareFunction name inputs output).map (Prod.map some id)
    | .declareConstant name sort => (s.declareConstant name sort).map (Prod.map some id)
    | .defineFunction name parameters output body =>
      (s.defineFunction name parameters output body).map (Prod.map some id)
    | .addVariable name sort => .ok (Prod.map some id (s.addVariable name sort))
    | .addAssertion name formula => .ok (none, s.addAssertion name formula) := by
  cases c with
  | declareSort name arity =>
    simp only [execute, Command.work, Edit.outcome_map, declareSort]
    cases (Edit.declareSort name arity).outcome s <;> rfl
  | setCardinality name count =>
    simp only [execute, Command.work, Edit.outcome_map, setCardinality]
    cases (Edit.setCardinality name count).outcome s <;> rfl
  | declareFunction | declareConstant | defineFunction => exact Edit.outcome_map some _ s
  | addVariable | addAssertion => rfl

theorem built_execute (h : s.Built) {answer : Option DeclId} (hc : s.execute c = .ok (answer, t)) :
    t.Built := by
  rw [execute_eq] at hc
  cases c with
  | declareSort name arity =>
    obtain ⟨r, hr, hrt⟩ := map_eq_ok.mp hc
    cases hrt
    exact h.declareSort hr
  | setCardinality name count =>
    obtain ⟨r, hr, hrt⟩ := map_eq_ok.mp hc
    cases hrt
    exact h.setCardinality hr
  | declareFunction name inputs output =>
    obtain ⟨r, hr, hrt⟩ := map_eq_ok.mp hc
    cases hrt
    exact h.declareFunction hr
  | declareConstant name sort =>
    obtain ⟨r, hr, hrt⟩ := map_eq_ok.mp hc
    cases hrt
    exact h.declareConstant hr
  | defineFunction name parameters output body =>
    obtain ⟨r, hr, hrt⟩ := map_eq_ok.mp hc
    cases hrt
    exact h.defineFunction hr
  | addVariable name sort =>
    cases hc
    exact h.addVariable name sort
  | addAssertion name formula =>
    cases hc
    exact h.addAssertion name formula

theorem after_of_execute {answer : Option DeclId} (h : s.execute c = .ok (answer, t)) :
    s.after c = t := by
  rw [after, Edit.outcome_eq_ok.mp h]

/-- No command changes anything before the last of its checks. -/
theorem traceless_work : ∀ c : Command, c.work.Traceless
  | .declareSort name arity => (Edit.traceless_declareSort name arity).map _
  | .setCardinality name count => (Edit.traceless_setCardinality name count).map _
  | .declareFunction name inputs output => (Edit.traceless_declareFunction name inputs output).map _
  | .declareConstant name sort => (Edit.traceless_declareConstant name sort).map _
  | .defineFunction name parameters output body =>
    (Edit.traceless_defineFunction name parameters output body).map _
  | .addVariable _ _ => Edit.traceless_of_ok fun _ => ⟨_, _, rfl⟩
  | .addAssertion _ _ => Edit.traceless_of_ok fun _ => ⟨_, _, rfl⟩

theorem after_of_refused {e : TermError} (h : s.execute c = .error e) : s.after c = s := by
  rw [after, (traceless_work c).run_error h]

theorem built_after (h : s.Built) (c : Command) : (s.after c).Built := by
  cases hc : s.execute c with
  | error e => rwa [after_of_refused hc]
  | ok r =>
    rw [after_of_execute hc]
    exact built_execute h hc

theorem built_afterAll (h : s.Built) (cs : List Command) : (s.afterAll cs).Built := by
  induction cs generalizing s with
  | nil => exact h
  | cons c cs ih => exact ih (built_after h c)

/-! ## Which commands are refused -/

/-- Names are taken once, sorts are counted once they are declared, and only
variables are parameters. -/
def refuses (s : Script) : Command → Prop
  | .declareSort name _ => name ∈ s.sorts.map (·.name)
  | .setCardinality name _ => name ∉ s.sorts.map (·.name)
  | .declareFunction name _ _ | .declareConstant name _ => name ∈ s.topLevel.map s.nameOf
  | .defineFunction name parameters _ _ =>
    name ∈ s.topLevel.map s.nameOf ∨ ∃ p ∈ parameters, p ∉ s.entries .variable
  | .addVariable _ _ | .addAssertion _ _ => False

theorem error_iff {ε α : Type} {x : Except ε α} : (∃ e, x = .error e) ↔ ¬ ∃ a, x = .ok a := by
  cases x <;> simp

theorem map_error_iff {α β : Type} {x : Except TermError α} {f : α → β} :
    (∃ e, x.map f = .error e) ↔ ∃ e, x = .error e := by
  cases x <;> simp [Except.map]

theorem sortDeclaration?_eq_none {name : String} :
    s.sortDeclaration? name = none ↔ name ∉ s.sorts.map (·.name) := by
  simp [sortDeclaration?]

theorem declareSort_error_iff {name : String} {arity : Nat} :
    (∃ e, s.declareSort name arity = .error e) ↔ name ∈ s.sorts.map (·.name) := by
  rw [error_iff, ← not_iff_not, ← sortDeclaration?_eq_none, not_not]
  simp [declareSort_eq_ok]

theorem setCardinality_error_iff {name : String} {count : Nat} :
    (∃ e, s.setCardinality name count = .error e) ↔ name ∉ s.sorts.map (·.name) := by
  rw [error_iff, ← sortDeclaration?_eq_none]
  simp [setCardinality_eq_ok]

theorem Coherent.lookup_iff_topLevel (h : s.Coherent) {name : String} {id : DeclId} :
    s.lookup name = some id ↔ id ∈ s.topLevel ∧ s.nameOf id = name := by
  rw [h.lookup, mem_topLevel h]
  constructor
  · intro ⟨d, hd, hname, hkind⟩
    exact ⟨⟨d, hd, hkind⟩, (nameOf_eq hd).trans hname⟩
  · intro ⟨⟨d, hd, hkind⟩, hname⟩
    exact ⟨d, hd, (nameOf_eq hd).symm.trans hname, hkind⟩

theorem Coherent.lookup_eq_none (h : s.Coherent) {name : String} :
    s.lookup name = none ↔ name ∉ s.topLevel.map s.nameOf := by
  rw [Option.eq_none_iff_forall_ne_some]
  simp only [ne_eq, h.lookup_iff_topLevel, List.mem_map, not_exists]

theorem Coherent.execute_error_iff (h : s.Coherent) (c : Command) :
    (∃ e, s.execute c = .error e) ↔ s.refuses c := by
  rw [execute_eq]
  cases c with
  | declareSort name arity => exact map_error_iff.trans declareSort_error_iff
  | setCardinality name count => exact map_error_iff.trans setCardinality_error_iff
  | declareFunction name inputs output =>
    refine map_error_iff.trans ?_
    rw [error_iff, refuses, ← not_iff_not, ← h.lookup_eq_none, not_not]
    simp [Prod.exists, declareFunction_eq_ok]
  | declareConstant name sort =>
    refine map_error_iff.trans ?_
    rw [error_iff, refuses, ← not_iff_not, ← h.lookup_eq_none, not_not]
    simp [Prod.exists, declareConstant_eq_ok]
  | defineFunction name parameters output body =>
    refine map_error_iff.trans ?_
    rw [error_iff, refuses, ← not_iff_not, not_or, ← h.lookup_eq_none, not_not]
    simp [Prod.exists, defineFunction_eq_add]
  | addVariable name sort => simp [refuses]
  | addAssertion name formula => simp [refuses]

/-! ## What every script made by commands satisfies -/

/-- The lists and the index describe the arena. -/
structure Indexed (s : Script) : Prop where
  /-- The index leads from the names of the listed declarations to these, and
  from no other name anywhere. -/
  index : ∀ name id, s.lookup name = some id ↔ id ∈ s.topLevel ∧ s.nameOf id = name
  /-- No declaration is listed twice, be it in one list or in two. -/
  listedOnce : s.topLevel.Nodup
  functions : ∀ id ∈ s.functions, id ∈ s.entries .function
  constants : ∀ id ∈ s.constants, id ∈ s.entries .constant
  definitions : ∀ id ∈ s.definitions, id ∈ s.entries .definition
  unlisted : ∀ id : DeclId, id.index < s.arena.size → id ∉ s.topLevel → id ∈ s.entries .variable
  names : (s.topLevel.map s.nameOf).Nodup
  sortNames : (s.sorts.map (·.name)).Nodup
  parameters : ∀ (id : DeclId) (name : String) (ps : List DeclId) (output : TermSort) (body : Term),
    s.arena[id.index]? = some (.definition name ps output body) → ∀ p ∈ ps, p ∈ s.entries .variable

theorem Coherent.variable_of_unlisted (h : s.Coherent) {id : DeclId} (hlt : id.index < s.arena.size)
    (hid : id ∉ s.topLevel) : id ∈ s.entries .variable := by
  have hd := Array.getElem?_eq_getElem hlt
  by_cases hkind : s.arena[id.index].kind = .variable
  · exact mem_entries.mpr ⟨_, hd, hkind⟩
  · exact absurd ((mem_topLevel h).mpr ⟨_, hd, hkind⟩) hid

theorem Coherent.indexed (h : s.Coherent) : s.Indexed where
  index _ _ := h.lookup_iff_topLevel
  listedOnce := nodup_topLevel h
  functions _ hid := h.functions ▸ hid
  constants _ hid := h.constants ▸ hid
  definitions _ hid := h.definitions ▸ hid
  unlisted _ := h.variable_of_unlisted
  names := (nodup_topLevel h).map_on fun _ hi _ hj hname => Reader.nameOf_injOn h hi hj hname
  sortNames := h.sortNames
  parameters _ _ _ _ _ := h.parameters

/-- After any commands whatsoever the lists and the index describe the arena.
What comes next is refused for the reasons given and no others, and then
leaves no trace. -/
theorem afterAll_indexed (cs : List Command) :
    (empty.afterAll cs).Indexed ∧ ∀ c,
      ((∃ e, (empty.afterAll cs).execute c = .error e) ↔ (empty.afterAll cs).refuses c) ∧
      ∀ e, (empty.afterAll cs).execute c = .error e →
        (empty.afterAll cs).after c = empty.afterAll cs := by
  have hc := (built_afterAll .empty cs).coherent
  exact ⟨hc.indexed, fun c => ⟨hc.execute_error_iff c, fun _ => after_of_refused⟩⟩

end Script

end TupleLogic
