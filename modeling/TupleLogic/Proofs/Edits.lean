import TupleLogic.Script

/-! Work on scripts. A command is made of steps, each of which changes the script
or stops the command; whatever was changed before stays. All commands check first
and change afterwards, so one that is refused leaves the script as it was. -/

namespace TupleLogic.Script.Edit

variable {α β : Type} {m : Edit α} {s t : Script}

/-- Where the work is refused, the script is as it was before. -/
def Traceless (m : Edit α) : Prop :=
  ∀ (s t : Script) (e : TermError), m.run.run s = (.error e, t) → t = s

theorem outcome_eq_ok {a : α} : m.outcome s = .ok (a, t) ↔ m.run.run s = (.ok a, t) := by
  unfold outcome
  split
  · rename_i b u hrun
    rw [hrun, Except.ok.injEq, Prod.mk.injEq, Prod.mk.injEq, Except.ok.injEq]
  · rename_i e u hrun
    rw [hrun]
    exact ⟨nofun, nofun⟩

theorem Traceless.run_error (h : m.Traceless) {e : TermError} (hm : m.outcome s = .error e) :
    m.run.run s = (.error e, s) := by
  unfold outcome at hm
  split at hm
  · cases hm
  · rename_i e' t hrun
    obtain rfl := Except.error.inj hm
    rw [hrun, h s t e' hrun]

/-! ## Steps -/

theorem run_map (f : α → β) (m : Edit α) (s : Script) :
    (f <$> m).run.run s = ((m.run.run s).1.map f, (m.run.run s).2) := by
  rw [ExceptT.run_map, StateT.run_map]
  rfl

theorem outcome_map (f : α → β) (m : Edit α) (s : Script) :
    (f <$> m).outcome s = (m.outcome s).map (Prod.map f id) := by
  rw [outcome, outcome, run_map]
  rcases m.run.run s with ⟨_ | _, t⟩ <;> rfl

theorem Traceless.map (h : m.Traceless) (f : α → β) : Traceless (f <$> m) := by
  intro s t e hrun
  rw [run_map] at hrun
  obtain ⟨hresult, rfl⟩ := Prod.mk.inj hrun
  cases hm : (m.run.run s).1 with
  | error e' => exact h s _ e' (Prod.ext hm rfl)
  | ok a =>
    rw [hm] at hresult
    cases hresult

/-- What is never refused may change whatever it likes. -/
theorem traceless_of_ok (h : ∀ s, ∃ a t, m.run.run s = (.ok a, t)) : m.Traceless := by
  intro s t e hrun
  obtain ⟨a, t', hm⟩ := h s
  rw [hm] at hrun
  cases hrun

section Require

variable (check : Script → Except TermError Unit) (k : Unit → Edit α)

theorem run_require_bind (s : Script) : (require check >>= k).run.run s =
    match check s with
    | .ok u => (k u).run.run s
    | .error e => (.error e, s) := by
  change ((MonadExcept.ofExcept (check s) : Edit Unit) >>= k).run.run s = _
  cases check s <;> rfl

theorem outcome_require_bind (s : Script) :
    (require check >>= k).outcome s = check s >>= fun u => (k u).outcome s := by
  rw [outcome, run_require_bind]
  cases check s <;> rfl

/-- A check changes nothing, so only what comes after it could leave a trace. -/
theorem traceless_require_bind (hk : (k ()).Traceless) : Traceless (require check >>= k) := by
  intro s t e hrun
  rw [run_require_bind] at hrun
  split at hrun
  · exact hk s t e hrun
  · exact (Prod.mk.inj hrun).2.symm

end Require

/-! ## Commands -/

theorem traceless_declareSort (name : String) (arity : Nat) : (declareSort name arity).Traceless :=
  traceless_require_bind _ _ (traceless_of_ok fun _ => ⟨_, _, rfl⟩)

theorem traceless_setCardinality (name : String) (count : Nat) :
    (setCardinality name count).Traceless :=
  traceless_require_bind _ _ (traceless_of_ok fun _ => ⟨_, _, rfl⟩)

theorem traceless_declareFunction (name : String) (inputs : List TermSort) (output : TermSort) :
    (declareFunction name inputs output).Traceless :=
  traceless_require_bind _ _ (traceless_of_ok fun _ => ⟨_, _, rfl⟩)

theorem traceless_declareConstant (name : String) (sort : TermSort) :
    (declareConstant name sort).Traceless :=
  traceless_require_bind _ _ (traceless_of_ok fun _ => ⟨_, _, rfl⟩)

theorem traceless_defineFunction (name : String) (parameters : List DeclId) (output : TermSort)
    (body : Term) : (defineFunction name parameters output body).Traceless :=
  traceless_require_bind _ _ (traceless_require_bind _ _ (traceless_of_ok fun _ => ⟨_, _, rfl⟩))

end TupleLogic.Script.Edit
