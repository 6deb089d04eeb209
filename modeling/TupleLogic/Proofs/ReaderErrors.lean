import TupleLogic.Proofs.ReaderOutput

/-! Why reading fails. A text is refused for what it says: it has no tokens or
no balanced parentheses, an item has no meaning where it stands, or the script
does not take a command for a reason that lies in its arguments. Positions
come from the script itself, so none is ever looked up in vain. -/

namespace TupleLogic

/-- What can be wrong with a text. -/
def ReadError.isProper : ReadError → Bool
  | .refused (.malformed _) => true
  | .refused _ | .unrecorded _ => false
  | _ => true

namespace Script.Reader

/-- No failure but a proper one. -/
def Proper {α : Type} (x : Except ReadError α) : Prop := ∀ e, x = .error e → e.isProper = true

/-- Fails properly, whatever has been read before. -/
def Safe {α : Type} (m : Reader α) : Prop := ∀ r, Proper (m r)

section Runs

variable {α β : Type}

theorem proper_ok (a : α) : Proper (.ok a) := nofun

theorem proper_error {e : ReadError} (h : e.isProper = true) : Proper (.error e : Except _ α) := by
  intro e' he
  exact Except.error.inj he ▸ h

theorem proper_bind {x : Except ReadError α} {f : α → Except ReadError β} (hx : Proper x)
    (hf : ∀ a, x = .ok a → Proper (f a)) : Proper (x >>= f) := by
  cases x with
  | error e => exact proper_error (hx e rfl)
  | ok a => exact hf a rfl

theorem proper_mapError {ε : Type} {x : Except ε α} {f : ε → ReadError}
    (h : ∀ e, x = .error e → (f e).isProper = true) : Proper (x.mapError f) := by
  cases x with
  | ok a => exact proper_ok a
  | error e => exact proper_error (h e rfl)

theorem proper_check {x : Except TermError α} (h : ∀ e, x = .error e → ∃ m, e = .malformed m) :
    Proper (check x) := by
  refine proper_mapError fun e he => ?_
  obtain ⟨m, rfl⟩ := h e he
  rfl

/-- The form of a checked constructor. -/
theorem proper_checked {c : Prop} [Decidable c] {m : Malformed} {a : α} :
    Proper (check (if c then .error (.malformed m) else .ok a)) := by
  refine proper_check fun e h => ?_
  split at h
  · exact ⟨m, (Except.error.inj h).symm⟩
  · cases h

theorem safe_pure (a : α) : Safe (pure a) := fun _ => proper_ok _

theorem safe_throw {e : ReadError} (h : e.isProper = true) : Safe (throw e : Reader α) :=
  fun _ => proper_error h

theorem safe_lift {x : Except ReadError α} (h : Proper x) : Safe (liftM x : Reader α) :=
  fun _ => proper_bind h fun _ _ => proper_ok _

theorem safe_get_bind {f : Script → Reader β} (h : ∀ s, Safe (f s)) : Safe (get >>= f) :=
  fun r => h r r

theorem proper_run_bind {m : Reader α} {f : α → Reader β} {r : Script} (hm : Proper (m r))
    (hf : ∀ a r', Reads m r a r' → Proper (f a r')) : Proper ((m >>= f) r) :=
  proper_bind hm fun p hp => hf p.1 p.2 hp

theorem safe_bind {m : Reader α} {f : α → Reader β} (hm : Safe m) (hf : ∀ a, Safe (f a)) :
    Safe (m >>= f) :=
  fun r => proper_run_bind (hm r) fun a r' _ => hf a r'

theorem proper_discard {m : Reader α} {r : Script} (hm : Proper (m r)) : Proper (discard m r) :=
  proper_bind hm fun _ _ => proper_ok _

theorem safe_mapM {f : α → Reader β} (h : ∀ a, Safe (f a)) (as : List α) : Safe (as.mapM f) := by
  induction as with
  | nil => exact safe_pure _
  | cons a as ih =>
    rw [List.mapM_cons]
    exact safe_bind (h a) fun _ => safe_bind ih fun _ => safe_pure _

end Runs

/-! ## What the script refuses -/

theorem checkFresh_bind_error {α : Type} {s : Script} {command : NamingCommand} {name : String}
    {k : Unit → Except TermError α} {e : TermError} (h : s.checkFresh command name >>= k = .error e)
    (hk : ∀ e, k () = .error e → ∃ m, e = .malformed m) : ∃ m, e = .malformed m := by
  unfold checkFresh at h
  split at h
  · exact ⟨_, (Except.error.inj h).symm⟩
  · exact hk e h

theorem declareFunction_error {s : Script} {name : String} {inputs : List TermSort}
    {output : TermSort} {e : TermError} (h : s.declareFunction name inputs output = .error e) :
    ∃ m, e = .malformed m := by
  rw [declareFunction_eq] at h
  exact checkFresh_bind_error h nofun

theorem declareConstant_error {s : Script} {name : String} {sort : TermSort} {e : TermError}
    (h : s.declareConstant name sort = .error e) : ∃ m, e = .malformed m := by
  rw [declareConstant_eq] at h
  exact checkFresh_bind_error h nofun

/-- Parameters that are variables pass the check, so only the name is left to
be refused. -/
theorem defineFunction_error {s : Script} {name : String} {parameters : List DeclId}
    {output : TermSort} {body : Term} {e : TermError}
    (hparameters : ∀ p ∈ parameters, p ∈ s.entries .variable)
    (h : s.defineFunction name parameters output body = .error e) : ∃ m, e = .malformed m := by
  rw [defineFunction_eq] at h
  refine checkFresh_bind_error h fun e he => ?_
  have hbound : ∀ p ∈ parameters, ∃ name sort, s.arena[p.index]? = some (.variable name sort) :=
    fun p hp => variable_mem_entries.mp (hparameters p hp)
  exact nomatch he.symm.trans (checkParameters_bind_eq_ok.mpr ⟨hbound, rfl⟩)

theorem declareSort_error {s : Script} {name : String} {arity : Nat} {e : TermError}
    (h : s.declareSort name arity = .error e) : ∃ m, e = .malformed m := by
  rw [declareSort_eq, checkSortFree] at h
  split at h
  · exact ⟨_, (Except.error.inj h).symm⟩
  · cases h

/-! ## Sorts -/

mutual
theorem proper_readSort (s : Script) : ∀ e : SExpr, Proper (readSort s e)
  | e => by
    unfold readSort
    split
    · -- a name
      repeat' split
      all_goals first | exact proper_ok _ | exact proper_error rfl
    · -- a list with a head
      split
      · split
        · exact proper_bind (proper_readSort s _) fun _ _ => proper_checked
        · exact proper_error rfl
      split
      · exact proper_bind (proper_readSorts s _) fun _ _ => proper_checked
      · exact proper_error rfl
    · exact proper_error rfl
termination_by e => sizeOf e

theorem proper_readSorts (s : Script) : ∀ es : List SExpr, Proper (readSorts s es)
  | [] => by
    rw [readSorts]
    exact proper_ok _
  | e :: es => by
    rw [readSorts]
    exact proper_bind (proper_readSort s e) fun _ _ =>
      proper_bind (proper_readSorts s es) fun _ _ => proper_ok _
termination_by es => sizeOf es
end

/-! ## Terms -/

theorem safe_readBinding (e : SExpr) : Safe (readBinding e) := by
  unfold readBinding
  split
  · exact fun s => proper_bind (proper_readSort s _) fun _ _ => proper_ok _
  · exact safe_throw rfl

theorem safe_solverValue (name : String) (sort : TermSort) : Safe (solverValue name sort) := by
  refine safe_get_bind fun s => ?_
  split
  · exact safe_pure _
  · exact safe_bind (fun _ => proper_check fun _ => declareConstant_error) fun _ => safe_pure _

theorem safe_readSymbol (scope : Scope) (name : String) : Safe (readSymbol scope name) := by
  unfold readSymbol
  split
  · exact safe_pure _
  split
  · exact safe_pure _
  split
  · exact safe_pure _
  refine safe_get_bind fun s => ?_
  split
  · exact safe_pure _
  split
  · split
    · exact safe_solverValue _ _
    · exact safe_throw rfl
  · exact safe_throw rfl

theorem safe_readInt (n : Int) : Safe (readInt n) := by
  unfold readInt
  split
  · exact safe_pure _
  · exact safe_throw rfl

theorem safe_readAnnotated (name : String) (sort : SExpr) : Safe (readAnnotated name sort) := by
  refine safe_get_bind fun s => safe_bind (safe_lift (proper_readSort s sort)) fun sort => ?_
  split
  · split
    · exact safe_pure _
    · exact safe_throw rfl
  split
  · split
    · exact safe_pure _
    · exact safe_throw rfl
  split
  · exact safe_solverValue _ _
  · exact safe_throw rfl

theorem safe_nary (op : NaryOp) (ts : List Term) : Safe (naryTerm op ts) := by
  cases op with
  | and => exact safe_pure _
  | or => exact safe_pure _
  | tuple => exact safe_lift proper_checked
  | distinct => exact safe_lift proper_checked
  | insert =>
    simp only [naryTerm]
    split
    · exact safe_lift proper_checked
    · exact safe_throw rfl

theorem safe_variadic {head : String} {terms : Reader (List Term)} (hterms : Safe terms) :
    Safe (variadicTerm head terms) := by
  unfold variadicTerm
  split
  · exact safe_bind hterms fun ts => safe_nary _ ts
  · refine safe_get_bind fun s => ?_
    split
    · exact safe_bind hterms fun _ => safe_pure _
    · exact safe_throw rfl

theorem safe_oneOperand (head : String) (op : UnaryOp) {terms : Reader (List Term)}
    (hterms : Safe terms) : Safe (do
      match ← terms with
      | [t] => return Term.unary op t
      | ts => throw (.oneOperand head ts.length)) := by
  refine safe_bind hterms fun ts => ?_
  split
  · exact safe_pure _
  · exact safe_throw rfl

theorem safe_twoOperands (head : String) (op : BinaryOp) {terms : Reader (List Term)}
    (hterms : Safe terms) : Safe (do
      match ← terms with
      | [a, b] => return Term.binary op a b
      | ts => throw (.twoOperands head ts.length)) := by
  refine safe_bind hterms fun ts => ?_
  split
  · exact safe_pure _
  · exact safe_throw rfl

theorem safe_application (head : String) (count : Nat) {terms : Reader (List Term)}
    (hterms : Safe terms) : Safe (application head count terms) := by
  unfold application
  split
  · split
    · exact safe_bind (safe_throw rfl) fun _ => safe_oneOperand head _ hterms
    · exact safe_oneOperand head _ hterms
  split
  · exact safe_variadic hterms
  · exact safe_variadic hterms
  · split
    · exact safe_bind (safe_throw rfl) fun _ => safe_twoOperands head _ hterms
    · exact safe_twoOperands head _ hterms

mutual
theorem safe_readTerm : ∀ (e : SExpr) (scope : Scope), Safe (readTerm scope e)
  | e, scope => by
    unfold readTerm
    split
    · exact safe_readSymbol _ _
    · exact safe_readInt _
    · exact safe_throw rfl
    · exact safe_readForm _ scope
termination_by e => sizeOf e

theorem safe_readForm : ∀ (es : List SExpr) (scope : Scope), Safe (readForm scope es)
  | es, scope => by
    unfold readForm
    split
    · rename_i head args
      have happlied : Safe (if args.isEmpty then throw (.unsupportedTerm (.list (.symbol head :: args)))
          else application head args.length (readTerms scope args) : Reader Term) := by
        split
        · exact safe_throw rfl
        · exact safe_application head _ (safe_readTerms args scope)
      simp only
      split
      · split
        · exact safe_readInt _
        · exact happlied
      · split
        · exact safe_readAnnotated _ _
        · exact happlied
      · split
        · exact safe_bind (safe_mapM safe_readBinding _) fun bound =>
            safe_bind (safe_readTerm _ _) fun _ => safe_lift proper_checked
        · exact happlied
      · split
        · exact safe_bind (safe_readTerm _ scope) fun _ => safe_bind (safe_readTerm _ scope) fun _ =>
            safe_bind (safe_readTerm _ scope) fun _ => safe_pure _
        · exact happlied
      · exact happlied
    · split
      · split
        · exact safe_bind (safe_readTerm _ scope) fun _ => safe_pure _
        · exact safe_throw rfl
      · exact safe_throw rfl
    · exact safe_throw rfl
termination_by es => sizeOf es

theorem safe_readTerms : ∀ (es : List SExpr) (scope : Scope), Safe (readTerms scope es)
  | [], scope => by
    rw [readTerms]
    exact safe_pure _
  | e :: es, scope => by
    rw [readTerms]
    exact safe_bind (safe_readTerm e scope) fun _ =>
      safe_bind (safe_readTerms es scope) fun _ => safe_pure _
termination_by es => sizeOf es
end

/-! ## Commands -/

section Commands

variable {r : Script} {args items : List SExpr} {command : SExpr}

theorem safe_declareSort : Safe (declareSort command args) := by
  unfold declareSort
  split
  · split
    · exact safe_get_bind fun s => safe_bind (safe_lift (proper_check fun _ => declareSort_error))
        fun _ _ => proper_ok _
    · exact safe_throw rfl
  · exact safe_throw rfl

theorem safe_declareFunction : Safe (declareFunction command args) := by
  unfold declareFunction
  split
  · exact safe_get_bind fun s => safe_bind (safe_lift (proper_readSorts s _)) fun _ =>
      safe_bind (safe_lift (proper_readSort s _)) fun _ =>
        fun _ => proper_discard (proper_check fun _ => declareFunction_error)
  · exact safe_throw rfl

theorem safe_declareConstant : Safe (declareConstant command args) := by
  unfold declareConstant
  split
  · exact safe_get_bind fun s => safe_bind (safe_lift (proper_readSort s _)) fun _ =>
      fun _ => proper_discard (proper_check fun _ => declareConstant_error)
  · exact safe_throw rfl

/-- The parameters that a definition is checked for were read just before. -/
theorem proper_defineFunction (hr : r.Understood) (hargs : SExpr.isLexicalAll args = true) :
    Proper (defineFunction command args r) := by
  unfold defineFunction
  split
  · simp only [SExpr.isLexicalAll, SExpr.isLexical, Bool.and_eq_true] at hargs
    refine proper_run_bind (proper_ok _) fun s r₁ hget => ?_
    obtain ⟨rfl, rfl⟩ := reads_get.mp hget
    refine proper_run_bind (safe_lift (proper_readSort _ _) _) fun output r₁ houtput => ?_
    obtain ⟨_, rfl⟩ := reads_lift.mp houtput
    refine proper_run_bind (safe_mapM safe_readBinding _ _) fun bound r₂ hbound => ?_
    refine proper_run_bind (safe_readTerm _ _ _) fun body r₃ hbody => ?_
    obtain ⟨_, hr₂, hscope⟩ := scoped_bindings hr hargs.2.1 hbound
    have hinner := hscope.append (scoped_nil _)
    rw [List.append_nil] at hinner
    have hb := outcome_readTerm hr₂ hinner hargs.2.2.2.1 hbody
    refine proper_discard (proper_check fun _ => defineFunction_error fun p hp => ?_)
    obtain ⟨name, sort, hd, _⟩ := binder_understood (((hscope.grows hb.grows).binds 0).2 p hp)
    exact variable_mem_entries.mpr ⟨name, sort, hd⟩
  · exact proper_error rfl

theorem safe_assertTerm {name : Option String} : Safe (assertTerm name command args) := by
  unfold assertTerm
  split
  · exact safe_bind (safe_readTerm _ _) fun _ _ => proper_ok _
  · exact safe_throw rfl

theorem proper_readCommand {dialect : Dialect} {name : Option String} (hr : r.Understood)
    (hitems : SExpr.isLexicalAll items = true) : Proper (readCommand dialect name items r) := by
  unfold readCommand
  split
  · rw [SExpr.isLexicalAll, Bool.and_eq_true] at hitems
    simp only
    split
    · exact safe_declareSort r
    split
    · exact safe_declareFunction r
    split
    · exact safe_declareConstant r
    split
    · exact proper_defineFunction hr hitems.2
    split
    · exact safe_assertTerm r
    split
    · unfold setLogic
      split
      · exact proper_ok _
      · exact proper_error rfl
    split
    · unfold setOption
      split
      · exact proper_ok _
      · exact proper_error rfl
    · exact proper_error rfl
  · exact proper_error rfl

theorem proper_readCommands {dialect : Dialect} {name : Option String}
    {counts : List (String × Nat)} (hr : r.Understood)
    (hname : ∀ n, name = some n → isPlainComment n = true)
    (hitems : SExpr.isLexicalAll items = true) :
    Proper (readCommands dialect name counts items r) := by
  induction items generalizing name counts r with
  | nil => exact proper_ok _
  | cons item items ih =>
    rw [SExpr.isLexicalAll, Bool.and_eq_true] at hitems
    unfold readCommands
    split
    · refine ih hr (fun n hn => ?_) hitems.2
      cases hn
      exact hitems.1
    · exact ih hr (by simp) hitems.2
    · rw [SExpr.isLexical] at hitems
      refine proper_bind (proper_readCommand hr hitems.1) fun read hcommand => ?_
      obtain ⟨_, r₁⟩ := read
      exact ih (understood_readCommand hr hname hitems.1 hcommand) (by simp) hitems.2
    · exact proper_error rfl

end Commands

end Script.Reader

end TupleLogic
