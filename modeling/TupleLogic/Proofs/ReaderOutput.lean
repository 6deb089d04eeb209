import TupleLogic.Proofs.SortCounts
import TupleLogic.Proofs.Understanding

/-! Reading step by step. A term is read next to the variables in scope, and may
bring in new variables and new values of a solver; whatever it is, it conforms
to what the reader makes. So does each command, and hence every script that is
read from a text. -/

namespace TupleLogic.Script

open TupleLogic.Symbol (writable)

namespace Reader

/-! ## Scopes -/

/-- Every name in scope is that of the variable it leads to. -/
def Scoped (r : Script) (scope : Scope) : Prop :=
  ∀ p ∈ scope, r.nameOf p.2 = p.1 ∧ (r.understood 0).binder p.2 = true

section Terms

variable {r r' : Script} {scope : Scope} {name : String} {t : Term}

theorem scoped_nil (r : Script) : Scoped r [] := fun _ h => nomatch h

theorem Scoped.append {bound : Scope} (hbound : Scoped r bound) (h : Scoped r scope) :
    Scoped r (bound.reverse ++ scope) := by
  intro p hp
  rcases List.mem_append.mp hp with hp | hp
  · exact hbound p (List.mem_reverse.mp hp)
  · exact h p hp

theorem Scoped.grows (h : Scoped r scope) (hg : r.Grows r') : Scoped r' scope := by
  intro p hp
  obtain ⟨hname, hbinder⟩ := h p hp
  obtain ⟨name, sort, hd, _⟩ := binder_understood hbinder
  exact ⟨(hg.extension.nameOf hd).trans hname, (understood_mono hg (Nat.le_refl 0)).binder hbinder⟩

theorem Scoped.binds (h : Scoped r scope) (limit : Nat) :
    (r.understood limit).Binds (scope.map Prod.snd) (scope.map Prod.snd) := by
  refine ⟨rfl, fun id hid => ?_⟩
  obtain ⟨p, hp, rfl⟩ := List.mem_map.mp hid
  exact (h p hp).2

theorem Scoped.resolve (h : Scoped r scope) (name : String) :
    r.resolve (scope.map Prod.snd) name = (scope.lookup name).or (r.lookup name) := by
  induction scope with
  | nil => rfl
  | cons p scope ih =>
    have ih := ih fun q hq => h q (.tail _ hq)
    have hname := (h p List.mem_cons_self).1
    obtain ⟨n, id⟩ := p
    unfold Script.resolve at ih ⊢
    rw [List.map_cons, List.find?_cons, List.lookup_cons]
    by_cases hn : name = n
    · have heq : r.nameOf id = name := hname.trans hn.symm
      simp [heq, hn]
    · have hne : ¬ r.nameOf id = name := fun h => hn (h.symm.trans hname)
      have hbeq : (name == n) = false := beq_eq_false_iff_ne.mpr hn
      simp only [decide_eq_false hne, hbeq]
      exact ih

theorem mem_of_lookup {id : DeclId} (h : scope.lookup name = some id) :
    (name, id) ∈ scope := by
  obtain ⟨before, after, rfl, _⟩ := List.lookup_eq_some_iff.mp h
  simp

/-! ## Symbols and the values of solvers -/

theorem reads_solverValue {sort : TermSort} : Reads (solverValue name sort) r t r' ↔
    (∃ id, r.lookup name = some id ∧ t = .ref id ∧ r' = r) ∨
      (r.lookup name = none ∧ t = .ref r.nextId ∧ r' = r.add (.constant name sort)) := by
  unfold solverValue
  rw [reads_bind]
  constructor
  · intro h
    obtain ⟨s, r₁, hs, h⟩ := h
    obtain ⟨rfl, rfl⟩ := reads_get.mp hs
    split at h
    · rename_i id hid
      exact .inl ⟨id, hid, reads_pure.mp h⟩
    · rename_i hfree
      obtain ⟨id, r₂, hid, h⟩ := reads_bind.mp h
      obtain ⟨rfl, rfl⟩ := reads_pure.mp h
      obtain ⟨_, rfl, rfl⟩ := declareConstant_eq_add.mp (reads_declare.mp hid)
      exact .inr ⟨hfree, rfl, rfl⟩
  · intro h
    refine ⟨r, r, reads_get.mpr ⟨rfl, rfl⟩, ?_⟩
    rcases h with ⟨id, hid, ht⟩ | ⟨hfree, rfl, rfl⟩
    · rw [hid]
      exact reads_pure.mpr ht
    · rw [hfree]
      exact reads_bind.mpr ⟨r.nextId, _, reads_declare.mpr (declareConstant_eq_add.mpr
        ⟨hfree, rfl, rfl⟩), reads_pure.mpr ⟨rfl, rfl⟩⟩

/-- A symbol means what its name means, or becomes a new value. -/
theorem denote_or_new_of_readSymbol (h : Reads (readSymbol scope name) r t r') :
    (r.denote scope name = some t ∧ r' = r) ∨
      (isLiteral name = false ∧ scope.lookup name = none ∧ r.lookup name = none ∧
        ∃ sort, solverSort? name = some sort ∧ r.declaresSort sort = true ∧ t = .ref r.nextId ∧
          r' = r.add (.constant name (.named sort))) := by
  unfold readSymbol at h
  unfold denote
  split at h
  · rename_i htrue
    obtain ⟨rfl, rfl⟩ := reads_pure.mp h
    exact .inl ⟨if_pos htrue, rfl⟩
  rename_i htrue
  split at h
  · rename_i hfalse
    obtain ⟨rfl, rfl⟩ := reads_pure.mp h
    exact .inl ⟨by rw [if_neg htrue, if_pos hfalse], rfl⟩
  rename_i hfalse
  rw [if_neg htrue, if_neg hfalse]
  split at h
  · rename_i id hid
    obtain ⟨rfl, rfl⟩ := reads_pure.mp h
    exact .inl ⟨by rw [hid], rfl⟩
  rename_i hscope
  have hnone : scope.lookup name = none := by
    cases hl : scope.lookup name with
    | none => rfl
    | some id => exact absurd hl (hscope id)
  rw [hnone]
  obtain ⟨s, r₁, hs, hrest⟩ := reads_bind.mp h
  obtain ⟨rfl, rfl⟩ := reads_get.mp hs
  split at hrest
  · rename_i id hid
    obtain ⟨rfl, rfl⟩ := reads_pure.mp hrest
    exact .inl ⟨by rw [hid]; rfl, rfl⟩
  split at hrest
  · rename_i sort hsolver
    split at hrest
    · rename_i d hd
      have hdeclared : r₁.declaresSort sort = true := by rw [declaresSort, hd]; rfl
      -- a solver's value is declared where it is first read
      rcases reads_solverValue.mp hrest with ⟨id, hid, rfl, rfl⟩ | ⟨hfree, ht⟩
      · exact .inl ⟨by rw [hid]; rfl, rfl⟩
      · have hliteral : isLiteral name = false := by simp [isLiteral, htrue, hfalse]
        exact .inr ⟨hliteral, rfl, hfree, sort, hsolver, hdeclared, ht⟩
    · cases hrest
  · cases hrest

theorem ne_of_isSolverName (h : isSolverName name = true) (other : String)
    (hother : isSolverName other = false) : name ≠ other := by
  rintro rfl
  rw [h] at hother
  cases hother

/-- A name with a sort is a set literal, or a value of a solver. -/
theorem reads_annotated {e : SExpr} : Reads (readAnnotated name e) r t r' ↔
    ∃ sort, readSort r e = .ok sort ∧
      (name = "emptyset" ∧ sort.isSet = true ∧ t = .emptySet sort ∧ r' = r ∨
        name = "univset" ∧ sort.isSet = true ∧ t = .fullSet sort ∧ r' = r ∨
        isSolverName name = true ∧ Reads (solverValue name sort) r t r') := by
  rw [readAnnotated, reads_get_bind, reads_lift_bind]
  refine exists_congr fun sort => and_congr_right fun _ => ?_
  by_cases hempty : name = "emptyset"
  · subst hempty
    simp [reads_ite, reads_pure, isSolverName]
  · by_cases hfull : name = "univset"
    · subst hfull
      simp [reads_ite, reads_pure, isSolverName]
    · simp [hempty, hfull, reads_ite, isSolverName]

/-- What comes of reading a term next to bound variables. -/
structure Outcome (r r' : Script) (bound : List DeclId) (t : Term) : Prop where
  grows : r.Grows r'
  understood : r'.Understood
  conforms : t.conforms (r'.understood r'.arena.size) bound = true

theorem precedes_of_lookup (hc : r.Coherent) {id : DeclId} (h : r.lookup name = some id) :
    r.precedes r.arena.size id = true := by
  obtain ⟨d, hd, _, hkind⟩ := hc.lookup.mp h
  have hlt : id.index < r.arena.size := (Array.getElem?_eq_some_iff.mp hd).1
  match d, hkind with
  | .function .., _ | .constant .., _ => simp only [precedes, hd]
  | .definition .., _ => simp only [precedes, hd, hlt, decide_true]
  | .variable .., hkind => exact absurd rfl hkind

/-- A reference to a declaration whose name no variable hides, or that is a
value of a solver. -/
theorem conforms_ref (hr : r.Understood) (hscope : Scoped r scope) {id : DeclId}
    (hid : r.lookup name = some id) (hname : writable name = true)
    (hliteral : isLiteral name = false)
    (hleads : scope.lookup name = none ∨ isSolverName name = true) :
    (Term.ref id).conforms (r.understood r.arena.size) (scope.map Prod.snd) = true := by
  have hnameOf := nameOf_lookup hr.coherent hid
  simp only [Term.conforms, understood, hnameOf, hname, hliteral, precedes_of_lookup hr.coherent hid,
    hscope.resolve, Bool.or_true, Bool.not_false, Bool.and_self, Bool.true_and, Bool.or_eq_true,
    decide_eq_true_eq]
  refine hleads.imp_left fun hnone => ?_
  rw [hnone, hid]
  rfl

theorem conforms_denote (hr : r.Understood) (hscope : Scoped r scope) (hname : writable name = true)
    (h : r.denote scope name = some t) :
    t.conforms (r.understood r.arena.size) (scope.map Prod.snd) = true := by
  by_cases hliteral : isLiteral name = true
  · simp only [isLiteral, Bool.or_eq_true, decide_eq_true_eq] at hliteral
    rcases hliteral with rfl | rfl
    · cases h; rfl
    · cases h; rfl
  rw [Bool.not_eq_true] at hliteral
  rw [denote_eq hliteral] at h
  obtain ⟨id, hid, rfl⟩ := Option.map_eq_some_iff.mp h
  cases hl : scope.lookup name with
  | none =>
    rw [hl] at hid
    exact conforms_ref hr hscope hid hname hliteral (.inl hl)
  | some v =>
    rw [hl, Option.some_or, Option.some.injEq] at hid
    subst hid
    have hmem := mem_of_lookup hl
    have hnameOf : r.nameOf v = name := (hscope _ hmem).1
    have hbound : v ∈ scope.map Prod.snd := List.mem_map_of_mem hmem
    simp [Term.conforms, understood, hnameOf, hname, hliteral, hscope.resolve, hl, hbound]

/-- A value of a solver, made where there is none. -/
theorem outcome_solverValue {sort : TermSort} (hr : r.Understood) (hscope : Scoped r scope)
    (hname : writable name = true) (hliteral : isLiteral name = false)
    (hleads : scope.lookup name = none ∨ isSolverName name = true)
    (hsort : sort.known r.declaresSort = true) (h : Reads (solverValue name sort) r t r') :
    Outcome r r' (scope.map Prod.snd) t := by
  rcases reads_solverValue.mp h with ⟨id, hid, rfl, rfl⟩ | ⟨hfree, rfl, rfl⟩
  · exact ⟨.refl r', hr, conforms_ref hr hscope hid hname hliteral hleads⟩
  · have hg : r.Grows (r.add (.constant name sort)) := grows_add hfree
    have hr' : (r.add (.constant name sort)).Understood :=
      hr.add hfree nofun (by simp [Declaration.conforms, understood, hname, hsort])
    have hid : (r.add (.constant name sort)).lookup name = some r.nextId :=
      (lookup_add hfree).mpr (.inr ⟨rfl, rfl⟩)
    exact ⟨hg, hr', conforms_ref hr' (hscope.grows hg) hid hname hliteral hleads⟩

theorem outcome_symbol (hr : r.Understood) (hscope : Scoped r scope) (hname : writable name = true)
    (h : Reads (readSymbol scope name) r t r') : Outcome r r' (scope.map Prod.snd) t := by
  rcases denote_or_new_of_readSymbol h with ⟨hdenote, rfl⟩ |
    ⟨hliteral, hnone, hfree, sort, _, hsort, ht⟩
  · exact ⟨.refl r', hr, conforms_denote hr hscope hname hdenote⟩
  · have hvalue : Reads (solverValue name (.named sort)) r t r' :=
      reads_solverValue.mpr (.inr ⟨hfree, ht⟩)
    have hknown : (TermSort.named sort).known r.declaresSort = true := hsort
    exact outcome_solverValue hr hscope hname hliteral (.inl hnone) hknown hvalue

theorem outcome_annotated {e : SExpr} (hr : r.Understood) (hscope : Scoped r scope)
    (hname : writable name = true) (h : Reads (readAnnotated name e) r t r') :
    Outcome r r' (scope.map Prod.snd) t := by
  obtain ⟨sort, hsort, hread⟩ := reads_annotated.mp h
  have hknown := known_of_readSort hsort
  rcases hread with ⟨_, hset, rfl, rfl⟩ | ⟨_, hset, rfl, rfl⟩ | ⟨hsolver, hvalue⟩
  · exact ⟨.refl _, hr, by simp [Term.conforms, understood, hset, hknown]⟩
  · exact ⟨.refl _, hr, by simp [Term.conforms, understood, hset, hknown]⟩
  · have hliteral : isLiteral name = false := by
      have htrue := ne_of_isSolverName hsolver "true" rfl
      have hfalse := ne_of_isSolverName hsolver "false" rfl
      simp [isLiteral, htrue, hfalse]
    exact outcome_solverValue hr hscope hname hliteral (.inr hsolver) hknown hvalue

/-- A variable, and the scope that it opens. -/
theorem scoped_binding {e : SExpr} {p : String × DeclId} (hr : r.Understood)
    (he : e.isLexical = true) (h : Reads (readBinding e) r p r') :
    r.Grows r' ∧ r'.Understood ∧ Scoped r' [p] := by
  unfold readBinding at h
  split at h
  · rename_i name sort
    obtain ⟨sort', hsort, hread⟩ := bind_eq_ok.mp h
    obtain ⟨rfl, rfl⟩ := Prod.mk.inj (pure_eq_ok.mp hread)
    have hg := grows_addVariable r name sort'
    have hname : writable name = true := by
      simp only [SExpr.isLexical, SExpr.isLexicalAll, Bool.and_eq_true] at he
      exact he.1
    refine ⟨hg, hr.addVariable name sort', fun q hq => ?_⟩
    obtain rfl := List.mem_singleton.mp hq
    have hd : (r.addVariable name sort').2.arena[r.nextId.index]? = some (.variable name sort') :=
      addVariable_getElem? r name sort'
    refine ⟨nameOf_eq hd, ?_⟩
    have hknown := TermSort.known_mono hg.sorts (known_of_readSort hsort)
    simp only [understood, addVariable] at hd hknown ⊢
    simp only [hd, hname, hknown, Bool.and_self]
  · cases h

theorem scoped_bindings {es : List SExpr} {bound : Scope} (hr : r.Understood)
    (hes : SExpr.isLexicalAll es = true) (h : Reads (es.mapM readBinding) r bound r') :
    r.Grows r' ∧ r'.Understood ∧ Scoped r' bound := by
  induction es generalizing r bound with
  | nil =>
    obtain ⟨rfl, rfl⟩ := reads_pure.mp h
    exact ⟨.refl _, hr, scoped_nil _⟩
  | cons e es ih =>
    rw [SExpr.isLexicalAll, Bool.and_eq_true] at hes
    rw [List.mapM_cons] at h
    obtain ⟨p, r₁, hp, hrest⟩ := reads_bind.mp h
    obtain ⟨ps, r₂, hps, hpure⟩ := reads_bind.mp hrest
    obtain ⟨rfl, rfl⟩ := reads_pure.mp hpure
    obtain ⟨hg, hr₁, hscope⟩ := scoped_binding hr hes.1 hp
    obtain ⟨hg', hr₂, hscopes⟩ := ih hr₁ hes.2 hps
    exact ⟨hg.trans hg', hr₂,
      List.forall_mem_cons.mpr ⟨hscope.grows hg' p List.mem_cons_self, hscopes⟩⟩

/-! ## Shapes of what is read -/

/-- Only a list is read as a term that is printed as a list. -/
theorem shape_of_reads {e : SExpr} (h : Reads (readTerm scope e) r t r') (ht : t.shape = .list) :
    e.shape = .list := by
  cases e with
  | list items => rfl
  | atom a =>
    cases a with
    | numeral n =>
      rw [readTerm] at h
      obtain ⟨_, rfl, _⟩ := reads_readInt.mp h
      have hn : ¬ ((n : Int) < 0) := by omega
      rw [Term.shape, if_neg hn] at ht
      cases ht
    | symbol name =>
      rw [readTerm] at h
      rcases denote_or_new_of_readSymbol h with ⟨hdenote, _⟩ | ⟨_, _, _, _, _, _, rfl, _⟩
      · unfold denote at hdenote
        split at hdenote
        · cases hdenote; cases ht
        split at hdenote
        · cases hdenote; cases ht
        split at hdenote
        · cases hdenote; cases ht
        · obtain ⟨id, _, rfl⟩ := Option.map_eq_some_iff.mp hdenote
          cases ht
      · cases ht
    | _ =>
      rw [readTerm] at h
      · cases h
      all_goals
        intro _ hatom
        cases hatom

theorem applied_of_shapes {head : String} {shapes shapes' : List Shape}
    (h : List.Forall₂ (fun a b => b = Shape.list → a = .list) shapes shapes')
    (happlied : applied head shapes = true) (hminus : head ≠ "-") (has : head ≠ "as") :
    applied head shapes' = true := by
  match h with
  | .nil => cases happlied
  | .cons hab .nil => unfold applied; split <;> simp_all
  | .cons (a := a) (b := b) hab (.cons _ .nil) =>
    cases b with
    | symbol => simpa [applied] using has
    | numeral => rfl
    | other => rfl
    | list =>
      rw [hab rfl] at happlied
      exact happlied
  | .cons _ (.cons _ (.cons _ .nil)) => simpa [applied] using happlied
  | .cons _ (.cons _ (.cons _ (.cons _ _))) => simp [applied]

/-! ## Applications and special forms -/

/-- What a head stands for where it is applied. -/
inductive HeadKind where
  | unary (op : UnaryOp)
  | binary (op : BinaryOp)
  | nary (op : NaryOp)
  | name
  deriving DecidableEq

/-- A selection is no head, since it has a form of its own. -/
def HeadKind.ofSpelling (head : String) : HeadKind :=
  match UnaryOp.ofSpelling? head with
  | some op => .unary op
  | none =>
    match BinaryOp.ofSpelling? head with
    | some .select | none =>
      match NaryOp.ofSpelling? head with
      | some op => .nary op
      | none => .name
    | some op => .binary op

theorem isOperator_eq (head : String) :
    isOperator head = decide (HeadKind.ofSpelling head ≠ .name) := by
  unfold isOperator HeadKind.ofSpelling
  cases UnaryOp.ofSpelling? head with
  | some op => simp
  | none =>
    cases BinaryOp.ofSpelling? head with
    | none => cases NaryOp.ofSpelling? head <;> simp
    | some op =>
      cases op with
      | select => cases NaryOp.ofSpelling? head <;> simp
      | _ => simp

theorem applies_iff {head : String} {ts : List Term} : Applies r head ts t ↔
    match HeadKind.ofSpelling head with
    | .unary op => ∃ a, ts = [a] ∧ t = .unary op a
    | .binary op => op ≠ .select ∧ ∃ a b, ts = [a, b] ∧ t = .binary op a b
    | .nary op => op.fewest ≤ ts.length ∧ t = .nary op ts
    | .name => (r.lookup head).isSome ∧ t = .call head ts := by
  unfold Applies HeadKind.ofSpelling
  cases UnaryOp.ofSpelling? head with
  | some op => exact Iff.rfl
  | none =>
    cases BinaryOp.ofSpelling? head with
    | none => cases NaryOp.ofSpelling? head <;> exact Iff.rfl
    | some op =>
      cases op with
      | select => cases NaryOp.ofSpelling? head <;> exact Iff.rfl
      | _ => simp

theorem applies_cases {head : String} {ts : List Term} (h : Applies r head ts t) :
    (∃ op a, ts = [a] ∧ t = .unary op a) ∨
    (∃ op a b, op ≠ .select ∧ ts = [a, b] ∧ t = .binary op a b) ∨
    (∃ op, NaryOp.fewest op ≤ ts.length ∧ t = .nary op ts) ∨
    (isOperator head = false ∧ (r.lookup head).isSome = true ∧ t = .call head ts) := by
  rw [applies_iff] at h
  rw [isOperator_eq]
  cases hhead : HeadKind.ofSpelling head with
  | unary op =>
    rw [hhead] at h
    exact .inl ⟨op, h⟩
  | binary op =>
    rw [hhead] at h
    obtain ⟨hop, a, b, h⟩ := h
    exact .inr (.inl ⟨op, a, b, hop, h⟩)
  | nary op =>
    rw [hhead] at h
    exact .inr (.inr (.inl ⟨op, h⟩))
  | name =>
    rw [hhead] at h
    exact .inr (.inr (.inr ⟨by simp, h⟩))

theorem conforms_applies {head : String} {es : List SExpr} {ts : List Term} {bound : List DeclId}
    (hr : r'.Understood) (hg : r.Grows r') (hhead : writable head = true)
    (happlied : applied head (es.map SExpr.shape) = true)
    (hshapes : List.Forall₂ (fun e t => Term.shape t = .list → SExpr.shape e = .list) es ts)
    (hts : Term.conformsAll (r'.understood r'.arena.size) bound ts = true)
    (h : Applies r head ts t) : t.conforms (r'.understood r'.arena.size) bound = true := by
  rcases applies_cases h with ⟨op, a, rfl, rfl⟩ | ⟨op, a, b, hop, rfl, rfl⟩ | ⟨op, hfew, rfl⟩ |
    ⟨hoperator, hlookup, rfl⟩
  · simpa [Term.conforms, Term.conformsAll] using hts
  · simpa [Term.conforms, Term.conformsAll, hop] using hts
  · simp [Term.conforms, hfew, hts]
  · obtain ⟨id, hid⟩ := Option.isSome_iff_exists.mp hlookup
    have hid := hg.extension.lookup hid
    have hne : ts ≠ [] := by
      rintro rfl
      cases hshapes
      cases happlied
    have happlied' : applied head (ts.map Term.shape) = true ∨ head = "-" ∨ head = "as" := by
      by_cases hspecial : head = "-" ∨ head = "as"
      · exact .inr hspecial
      · rw [not_or] at hspecial
        refine .inl (applied_of_shapes ?_ happlied hspecial.1 hspecial.2)
        rw [List.forall₂_map_left_iff, List.forall₂_map_right_iff]
        exact hshapes
    simp only [Term.conforms, understood, hhead, hoperator, hid, Option.any_some,
      precedes_of_lookup hr.coherent hid, Bool.true_and, Bool.and_true, Bool.not_false,
      Bool.or_eq_true, Bool.and_eq_true, decide_eq_true_eq, Bool.not_eq_true',
      List.isEmpty_eq_false_iff]
    exact ⟨⟨happlied', hne⟩, hts⟩

/-- A term that was read before another one. -/
theorem Outcome.later {r₁ : Script} (h : Outcome r r₁ (scope.map Prod.snd) t)
    (hscope : Scoped r scope) (hg : r₁.Grows r') :
    t.conforms (r'.understood r'.arena.size) (scope.map Prod.snd) = true :=
  Term.conforms_mono (understood_mono hg hg.extension.size_le)
    ((hscope.grows h.grows).binds _) h.conforms

theorem outcome_readInt {n : Int} {bound : List DeclId} (hr : r.Understood)
    (h : Reads (readInt n) r t r') : Outcome r r' bound t := by
  obtain ⟨hfits, rfl, rfl⟩ := reads_readInt.mp h
  exact ⟨.refl _, hr, hfits⟩

theorem outcome_quantified {bound : Scope} {q : Quantifier} {r₁ : Script} {b : Term}
    (hg : r.Grows r₁) (hinner : Scoped r₁ bound) (hne : bound ≠ [])
    (hb : Outcome r₁ r' ((bound.reverse ++ scope).map Prod.snd) b) :
    Outcome r r' (scope.map Prod.snd) (.quantified q (bound.map Prod.snd) b) := by
  refine ⟨hg.trans hb.grows, hb.understood, ?_⟩
  have hbinders := ((hinner.grows hb.grows).binds r'.arena.size).2
  have hbody := hb.conforms
  rw [List.map_append, List.map_reverse] at hbody
  simp only [Term.conforms, Bool.and_eq_true, Bool.not_eq_true', List.isEmpty_eq_false_iff,
    List.all_eq_true]
  exact ⟨⟨by simpa using hne, hbinders⟩, hbody⟩

theorem outcome_cases : TermCases
    (fun scope e r t r' => r.Understood → Scoped r scope → e.isLexical = true →
      Outcome r r' (scope.map Prod.snd) t)
    (fun scope es r ts r' => r.Understood → Scoped r scope → SExpr.isLexicalAll es = true →
      r.Grows r' ∧ r'.Understood ∧
        Term.conformsAll (r'.understood r'.arena.size) (scope.map Prod.snd) ts = true ∧
        List.Forall₂ (fun e t => Term.shape t = .list → SExpr.shape e = .list) es ts) where
  symbol h hr hscope he := outcome_symbol hr hscope he h
  numeral h hr _ _ := outcome_readInt hr h
  negative h hr _ _ := outcome_readInt hr h
  annotated h hr hscope he := by
    simp only [SExpr.isLexical, SExpr.isLexicalAll, Bool.and_eq_true] at he
    exact outcome_annotated hr hscope he.2.1 h
  application happlied _ hts happlies hr hscope he := by
    rw [SExpr.isLexical, SExpr.isLexicalAll, Bool.and_eq_true] at he
    obtain ⟨hg, hr', hconf, hshapes⟩ := hts hr hscope he.2
    exact ⟨hg, hr', conforms_applies hr' hg he.1 happlied hshapes hconf happlies⟩
  quantified hbound hne hb hr hscope he := by
    simp only [SExpr.isLexical, SExpr.isLexicalAll, Bool.and_eq_true] at he
    obtain ⟨hg, hr₁, hinner⟩ := scoped_bindings hr he.2.1 hbound
    exact outcome_quantified hg hinner hne (hb hr₁ (hinner.append (hscope.grows hg)) he.2.2.1)
  conditional hc ha hb hr hscope he := by
    simp only [SExpr.isLexical, SExpr.isLexicalAll, Bool.and_eq_true] at he
    have hc := hc hr hscope he.2.1
    have hscope₁ := hscope.grows hc.grows
    have ha := ha hc.understood hscope₁ he.2.2.1
    have hscope₂ := hscope₁.grows ha.grows
    have hb := hb ha.understood hscope₂ he.2.2.2.1
    refine ⟨(hc.grows.trans ha.grows).trans hb.grows, hb.understood, ?_⟩
    simp only [Term.conforms, Bool.and_eq_true]
    exact ⟨⟨hc.later hscope (ha.grows.trans hb.grows), ha.later hscope₁ hb.grows⟩, hb.conforms⟩
  selection hfits hb hr hscope he := by
    simp only [SExpr.isLexical, SExpr.isLexicalAll, Bool.and_eq_true] at he
    have hb := hb hr hscope he.2.1
    refine ⟨hb.grows, hb.understood, ?_⟩
    simp only [Term.select, Term.conforms, Term.isColumn, if_true, Bool.and_eq_true, decide_eq_true_eq]
    exact ⟨⟨by omega, hfits⟩, hb.conforms⟩
  nil hr _ _ := ⟨.refl _, hr, rfl, .nil⟩
  cons ht hhead htail hr hscope hes := by
    rw [SExpr.isLexicalAll, Bool.and_eq_true] at hes
    have hhead := hhead hr hscope hes.1
    obtain ⟨hg, hr', hconf, hshapes⟩ := htail hhead.understood (hscope.grows hhead.grows) hes.2
    refine ⟨hhead.grows.trans hg, hr', ?_, .cons (shape_of_reads ht) hshapes⟩
    rw [Term.conformsAll, hhead.later hscope hg, hconf]
    rfl

theorem outcome_readTerm {e : SExpr} (hr : r.Understood) (hscope : Scoped r scope)
    (he : e.isLexical = true) (h : Reads (readTerm scope e) r t r') :
    Outcome r r' (scope.map Prod.snd) t :=
  outcome_cases.term h hr hscope he

end Terms

/-! ## Commands -/

section Commands

variable {r r' : Script} {args items : List SExpr} {command : SExpr}

theorem reads_set {s : Script} {u : PUnit} : Reads (set s) r u r' ↔ r' = s :=
  reads_pure.trans (and_iff_right rfl)

/-- What an item of a text does to the script; `name` is the text of the comment right
before it. -/
inductive Executes (name : Option String) : SExpr → Script → Script → Prop
  | comment {r : Script} (text : String) : Executes name (.atom (.comment text)) r r
  | cardinality {r : Script} (sort : String) (count : Nat) :
      Executes name (.atom (.cardinality sort count)) r r
  | logic {r : Script} (logic : String) :
      Executes name (.list [.symbol "set-logic", .symbol logic]) r r
  | option {r : Script} (key : String) (value : SExpr) :
      Executes name (.list [.symbol "set-option", .atom (.keyword key), value]) r r
  | sort {r r' : Script} {sort : String} {arity : Nat} : Text.fitsUnsigned32 arity = true →
      r.declareSort sort arity = .ok r' →
      Executes name (.list [.symbol "declare-sort", .symbol sort, .numeral arity]) r r'
  | function {r : Script} {function : String} {ins : List SExpr} {out : SExpr}
      {inputs : List TermSort} {output : TermSort} : readSorts r ins = .ok inputs →
      readSort r out = .ok output → r.lookup function = none →
      Executes name (.list [.symbol "declare-fun", .symbol function, .list ins, out]) r
        (r.add (.function function inputs output))
  | constant {r : Script} {constant : String} {out : SExpr} {output : TermSort} :
      readSort r out = .ok output → r.lookup constant = none →
      Executes name (.list [.symbol "declare-const", .symbol constant, out]) r
        (r.add (.constant constant output))
  | definition {r r₁ r₂ : Script} {function : String} {parameters : List SExpr}
      {out body : SExpr} {output : TermSort} {vars : Scope} {t : Term} :
      readSort r out = .ok output → Reads (parameters.mapM readBinding) r vars r₁ →
      Reads (readTerm vars.reverse body) r₁ t r₂ →
      (∀ p ∈ vars.map Prod.snd, p ∈ r₂.entries .variable) → r₂.lookup function = none →
      Executes name (.list [.symbol "define-fun", .symbol function, .list parameters, out, body]) r
        (r₂.add (.definition function (vars.map Prod.snd) output t))
  | assertion {r r' : Script} {body : SExpr} {t : Term} : Reads (readTerm [] body) r t r' →
      Executes name (.list [.symbol "assert", body]) r (r'.addAssertion name t)

theorem executes_declareSort {name : Option String} (h : Reads (declareSort command args) r () r') :
    Executes name (.list (.symbol "declare-sort" :: args)) r r' := by
  unfold declareSort at h
  split at h
  · obtain ⟨hfits, hdeclare⟩ := reads_ite.mp h
    obtain ⟨s, hs, hset⟩ := reads_lift_bind.mp (reads_get_bind.mp hdeclare)
    obtain rfl := reads_set.mp hset
    exact .sort hfits (check_eq_ok.mp hs)
  · cases h

theorem executes_declareFunction {name : Option String}
    (h : Reads (declareFunction command args) r () r') :
    Executes name (.list (.symbol "declare-fun" :: args)) r r' := by
  unfold declareFunction at h
  split at h
  · obtain ⟨inputs, hinputs, hrest⟩ := reads_lift_bind.mp (reads_get_bind.mp h)
    obtain ⟨output, houtput, hdiscard⟩ := reads_lift_bind.mp hrest
    obtain ⟨id, hid, _⟩ := reads_map.mp hdiscard
    obtain ⟨hfree, _, rfl⟩ := declareFunction_eq_add.mp (reads_declare.mp hid)
    exact .function hinputs houtput hfree
  · cases h

theorem executes_declareConstant {name : Option String}
    (h : Reads (declareConstant command args) r () r') :
    Executes name (.list (.symbol "declare-const" :: args)) r r' := by
  unfold declareConstant at h
  split at h
  · obtain ⟨sort, hsort, hdiscard⟩ := reads_lift_bind.mp (reads_get_bind.mp h)
    obtain ⟨id, hid, _⟩ := reads_map.mp hdiscard
    obtain ⟨hfree, _, rfl⟩ := declareConstant_eq_add.mp (reads_declare.mp hid)
    exact .constant hsort hfree
  · cases h

theorem executes_defineFunction {name : Option String}
    (h : Reads (defineFunction command args) r () r') :
    Executes name (.list (.symbol "define-fun" :: args)) r r' := by
  unfold defineFunction at h
  split at h
  · obtain ⟨output, houtput, hrest⟩ := reads_lift_bind.mp (reads_get_bind.mp h)
    obtain ⟨vars, r₁, hvars, hrest'⟩ := reads_bind.mp hrest
    obtain ⟨body, r₂, hbody, hdiscard⟩ := reads_bind.mp hrest'
    obtain ⟨id, hid, _⟩ := reads_map.mp hdiscard
    obtain ⟨hfree, hparameters, _, rfl⟩ := defineFunction_eq_add.mp (reads_declare.mp hid)
    exact .definition houtput hvars hbody hparameters hfree
  · cases h

theorem executes_assertTerm {name : Option String}
    (h : Reads (assertTerm name command args) r () r') :
    Executes name (.list (.symbol "assert" :: args)) r r' := by
  unfold assertTerm at h
  split at h
  · obtain ⟨formula, r₁, hformula, hmodify⟩ := reads_bind.mp h
    obtain rfl : r' = r₁.addAssertion name formula := (reads_pure.mp hmodify).2
    exact .assertion hformula
  · cases h

theorem executes_readCommand {dialect : Dialect} {name : Option String}
    (h : Reads (readCommand dialect name items) r () r') : Executes name (.list items) r r' := by
  unfold readCommand at h
  split at h
  · rename_i head args
    simp only at h
    split at h
    · rename_i hhead
      exact hhead ▸ executes_declareSort h
    split at h
    · rename_i hhead
      exact hhead ▸ executes_declareFunction h
    split at h
    · rename_i hhead
      exact hhead ▸ executes_declareConstant h
    split at h
    · rename_i hhead
      exact hhead ▸ executes_defineFunction h
    split at h
    · rename_i hhead
      exact hhead.2 ▸ executes_assertTerm h
    split at h
    · rename_i hhead
      unfold setLogic at h
      split at h
      · rw [hhead.2, (reads_pure.mp h).2]
        exact .logic _
      · cases h
    split at h
    · rename_i hhead
      unfold setOption at h
      split at h
      · rw [hhead.2, (reads_pure.mp h).2]
        exact .option _ _
      · cases h
    · cases h
  · cases h

theorem Executes.understood {name : Option String} {item : SExpr} (h : Executes name item r r')
    (hr : r.Understood) (hname : ∀ n, name = some n → isPlainComment n = true)
    (hitem : item.isLexical = true) : r'.Understood := by
  cases h with
  | comment | cardinality | logic | option => exact hr
  | sort hfits hs =>
    simp only [SExpr.isLexical, SExpr.isLexicalAll, Bool.and_eq_true] at hitem
    exact hr.declareSort hs hitem.2.1 hfits
  | function hinputs houtput hfree =>
    simp only [SExpr.isLexical, SExpr.isLexicalAll, Bool.and_eq_true] at hitem
    refine hr.add hfree (fun heq => by cases heq) ?_
    simp only [Declaration.conforms, Bool.and_eq_true, List.all_eq_true]
    exact ⟨⟨hitem.2.1, TermSort.knownAll_iff.mp (known_of_readSorts hinputs)⟩,
      known_of_readSort houtput⟩
  | constant hsort hfree =>
    simp only [SExpr.isLexical, SExpr.isLexicalAll, Bool.and_eq_true] at hitem
    refine hr.add hfree (fun heq => by cases heq) ?_
    rw [Declaration.conforms, Bool.and_eq_true]
    exact ⟨hitem.2.1, known_of_readSort hsort⟩
  | definition houtput hvars hbody hparameters hfree =>
    simp only [SExpr.isLexical, SExpr.isLexicalAll, Bool.and_eq_true] at hitem
    obtain ⟨hg, hr₁, hscope⟩ := scoped_bindings hr hitem.2.2.1 hvars
    have hinner := hscope.append (scoped_nil _)
    rw [List.append_nil] at hinner
    have hb := outcome_readTerm hr₁ hinner hitem.2.2.2.2.1 hbody
    refine hb.understood.add hfree (fun heq p hp => ?_) ?_
    · cases heq
      exact hparameters p hp
    · have hconf := hb.conforms
      rw [List.map_reverse] at hconf
      simp only [Declaration.conforms, Bool.and_eq_true, List.all_eq_true]
      exact ⟨⟨⟨hitem.2.1, ((hscope.grows hb.grows).binds _).2⟩,
        TermSort.known_mono (hg.trans hb.grows).sorts (known_of_readSort houtput)⟩, hconf⟩
  | assertion hbody =>
    simp only [SExpr.isLexical, SExpr.isLexicalAll, Bool.and_eq_true] at hitem
    have hf := outcome_readTerm hr (scoped_nil r) hitem.2.1 hbody
    exact hf.understood.addAssertion hname hf.conforms

theorem understood_readCommand {dialect : Dialect} {name : Option String} (hr : r.Understood)
    (hname : ∀ n, name = some n → isPlainComment n = true)
    (hitems : SExpr.isLexicalAll items = true)
    (h : Reads (readCommand dialect name items) r () r') : r'.Understood :=
  (executes_readCommand h).understood hr hname (by rw [SExpr.isLexical, hitems])

/-- A comment is the name of the assertion after it. -/
theorem understood_readCommands {dialect : Dialect} {name : Option String}
    {counts result : List (String × Nat)} (hr : r.Understood)
    (hname : ∀ n, name = some n → isPlainComment n = true)
    (hitems : SExpr.isLexicalAll items = true)
    (h : Reads (readCommands dialect name counts items) r result r') : r'.Understood := by
  induction items generalizing name counts r with
  | nil => exact (reads_pure.mp h).2 ▸ hr
  | cons item items ih =>
    rw [SExpr.isLexicalAll, Bool.and_eq_true] at hitems
    unfold readCommands at h
    split at h
    · refine ih hr (fun n hn => ?_) hitems.2 h
      cases hn
      exact hitems.1
    · exact ih hr (by simp) hitems.2 h
    · obtain ⟨_, r₁, hcommand, hrest⟩ := reads_bind.mp h
      rw [SExpr.isLexical] at hitems
      exact ih (understood_readCommand hr hname hitems.1 hcommand) (by simp) hitems.2 hrest
    · cases h

theorem isLexicalAll_unwrap (h : SExpr.isLexicalAll items = true) :
    SExpr.isLexicalAll (unwrap items) = true := by
  unfold unwrap
  split
  · split
    · split
      · simp only [SExpr.isLexicalAll, SExpr.isLexical, Bool.and_eq_true] at h
        exact h.1.2
      · exact h
    · simpa [SExpr.isLexicalAll, SExpr.isLexical] using h
  · exact h

theorem understood_attach (hr : r.Understood) (counts : List (String × Nat)) :
    (attach counts r).Understood := by
  refine hr.mapSorts (fun d => ?_) fun d => ?_
  · split <;> rfl
  · split <;> rfl

end Commands

end Reader

open Reader

theorem understood_empty : empty.Understood := ⟨coherent_empty, rfl⟩

theorem isLexicalAll_of_tokens {text : String} {ts : List Token} {items : List SExpr}
    (hts : (Token.ofText text).mapError ReadError.lexing = .ok ts)
    (hitems : (SExpr.ofTokens (SExpr.dropNestedComments 0 ts)).mapError ReadError.unbalanced =
      .ok items) :
    SExpr.isLexicalAll items = true := by
  refine SExpr.isLexical_of_build (mapError_eq_ok.mp hitems) nofun rfl fun t ht => ?_
  exact Token.isLexical_of_ofText (mapError_eq_ok.mp hts) t
    ((SExpr.sublist_dropNestedComments 0 ts).mem ht)

/-- Whatever is read from a text is understood. -/
theorem understood_of_read {dialect : Dialect} {text : String} {s : Script}
    (h : read dialect text = .ok s) : s.Understood := by
  obtain ⟨ts, hts, hrest⟩ := bind_eq_ok.mp h
  obtain ⟨items, hitems, hscript⟩ := bind_eq_ok.mp hrest
  have hlexical := isLexicalAll_of_tokens hts hitems
  rw [ofSExprs_eq_attach] at hscript
  obtain ⟨⟨counts, r⟩, hr, hs⟩ := bind_eq_ok.mp hscript
  obtain rfl := pure_eq_ok.mp hs
  exact understood_attach
    (understood_readCommands understood_empty (by simp) (isLexicalAll_unwrap hlexical) hr) _

end TupleLogic.Script
