import TupleLogic.Proofs.Commands
import TupleLogic.Proofs.ReaderBinders
import TupleLogic.Proofs.ReaderErrors

/-! Scripts that need nothing from outside. All positions are inside the arena,
all sorts are declared, references go to declarations or to the variables
around them, operators have legal operands, and each variable is bound once.
A text is read as such a script or properly refused. -/

namespace TupleLogic

/-- The sorts that a declaration is given. -/
def Declaration.ownSorts : Declaration → List TermSort
  | .function _ inputs output => inputs ++ [output]
  | .constant _ sort | .definition _ _ sort _ | .variable _ sort => [sort]

/-- The positions in the parameters and the body of a definition. -/
def Declaration.held : Declaration → List DeclId
  | .definition _ parameters _ body => parameters ++ body.decls
  | _ => []

namespace Script

/-- Every position that a list, a declaration or an assertion holds. -/
def held (s : Script) : List DeclId :=
  s.topLevel ++ s.arena.toList.flatMap Declaration.held ++
    s.assertions.flatMap (·.formula.decls)

/-- What the terms of a closed script use: known sorts, variables of such
sorts, what is bound around a reference or declared, and declared functions. -/
def closedUsage (s : Script) : Usage where
  name _ := true
  sort := TermSort.known s.declaresSort
  binder id := (s.arena[id.index]?).any fun d =>
    decide (d.kind = .variable) && d.sort.known s.declaresSort
  ref bound id := bound.contains id || s.topLevel.contains id
  call f _ := (s.lookup f).any s.topLevel.contains

structure Closed (s : Script) : Prop where
  indexed : s.Indexed
  positions : ∀ id ∈ s.held, id.index < s.arena.size
  sorts : ∀ d ∈ s.arena, ∀ sort ∈ d.ownSorts, sort.known s.declaresSort = true
  conforms : s.conforms (fun _ => s.closedUsage) (fun _ => true) = true
  boundOnce : s.binders.Perm (s.entries .variable)

/-! ## What conforming terms hold -/

section Terms

variable {u : Usage} {P : DeclId → Prop}

mutual
theorem binder_of_conforms : ∀ {t : Term} {bound : List DeclId}, t.conforms u bound = true →
    ∀ x ∈ t.binders, u.binder x = true
  | .ref _, _, _, _, hx | .int _, _, _, _, hx | .bool _, _, _, _, hx | .emptySet _, _, _, _, hx
  | .fullSet _, _, _, _, hx => by simp [Term.binders] at hx
  | .unary op a, bound, h, x, hx => by
    rw [Term.conforms] at h
    rw [Term.binders] at hx
    exact binder_of_conforms h x hx
  | .binary op a b, bound, h, x, hx => by
    rw [Term.conforms, Bool.and_eq_true] at h
    rw [Term.binders, List.mem_append] at hx
    rcases hx with hx | hx
    · by_cases hop : op = .select
      · -- a column is a number and binds nothing
        rw [if_pos hop] at h
        cases a with
        | int n => simp [Term.binders] at hx
        | _ => simp [Term.isColumn] at h
      · rw [if_neg hop] at h
        exact binder_of_conforms h.1 x hx
    · exact binder_of_conforms h.2 x hx
  | .nary op args, bound, h, x, hx => by
    rw [Term.conforms, Bool.and_eq_true] at h
    rw [Term.binders] at hx
    exact binder_of_conformsAll h.2 x hx
  | .quantified q vars body, bound, h, x, hx => by
    simp only [Term.conforms, Bool.and_eq_true, List.all_eq_true] at h
    rw [Term.binders, List.mem_append] at hx
    rcases hx with hx | hx
    · exact h.1.2 x hx
    · exact binder_of_conforms h.2 x hx
  | .ite c a b, bound, h, x, hx => by
    simp only [Term.conforms, Bool.and_eq_true] at h
    rw [Term.binders, List.mem_append, List.mem_append] at hx
    rcases hx with (hx | hx) | hx
    · exact binder_of_conforms h.1.1 x hx
    · exact binder_of_conforms h.1.2 x hx
    · exact binder_of_conforms h.2 x hx
  | .call f args, bound, h, x, hx => by
    rw [Term.conforms, Bool.and_eq_true] at h
    rw [Term.binders] at hx
    exact binder_of_conformsAll h.2 x hx

theorem binder_of_conformsAll : ∀ {ts : List Term} {bound : List DeclId},
    Term.conformsAll u bound ts = true → ∀ x ∈ Term.bindersAll ts, u.binder x = true
  | [], bound, _, x, hx => by simp [Term.bindersAll] at hx
  | t :: ts, bound, h, x, hx => by
    rw [Term.conformsAll, Bool.and_eq_true] at h
    rw [Term.bindersAll, List.mem_append] at hx
    rcases hx with hx | hx
    · exact binder_of_conforms h.1 x hx
    · exact binder_of_conformsAll h.2 x hx
end

mutual
/-- What holds of all variables and of all that may be referred to next to
them holds of every position in a term. -/
theorem decls_of_conforms (hbinder : ∀ x, u.binder x = true → P x)
    (href : ∀ bound x, u.ref bound x = true → x ∈ bound ∨ P x) :
    ∀ {t : Term} {bound : List DeclId}, t.conforms u bound = true → (∀ x ∈ bound, P x) →
      ∀ x ∈ t.decls, P x
  | .ref id, bound, h, hbound, x, hx => by
    rw [Term.decls, List.mem_singleton] at hx
    rw [hx]
    exact (href bound id h).elim (hbound id) fun hP => hP
  | .int _, _, _, _, _, hx | .bool _, _, _, _, _, hx | .emptySet _, _, _, _, _, hx
  | .fullSet _, _, _, _, _, hx => by simp [Term.decls] at hx
  | .unary op a, bound, h, hbound, x, hx => by
    rw [Term.conforms] at h
    rw [Term.decls] at hx
    exact decls_of_conforms hbinder href h hbound x hx
  | .binary op a b, bound, h, hbound, x, hx => by
    rw [Term.conforms, Bool.and_eq_true] at h
    rw [Term.decls, List.mem_append] at hx
    rcases hx with hx | hx
    · by_cases hop : op = .select
      · rw [if_pos hop] at h
        cases a with
        | int n => simp [Term.decls] at hx
        | _ => simp [Term.isColumn] at h
      · rw [if_neg hop] at h
        exact decls_of_conforms hbinder href h.1 hbound x hx
    · exact decls_of_conforms hbinder href h.2 hbound x hx
  | .nary op args, bound, h, hbound, x, hx => by
    rw [Term.conforms, Bool.and_eq_true] at h
    rw [Term.decls] at hx
    exact decls_of_conformsAll hbinder href h.2 hbound x hx
  | .quantified q vars body, bound, h, hbound, x, hx => by
    simp only [Term.conforms, Bool.and_eq_true, List.all_eq_true] at h
    have hvars : ∀ v ∈ vars, P v := fun v hv => hbinder v (h.1.2 v hv)
    rw [Term.decls, List.mem_append] at hx
    rcases hx with hx | hx
    · exact hvars x hx
    · refine decls_of_conforms hbinder href h.2 (fun v hv => ?_) x hx
      rw [List.mem_append, List.mem_reverse] at hv
      exact hv.elim (hvars v) (hbound v)
  | .ite c a b, bound, h, hbound, x, hx => by
    simp only [Term.conforms, Bool.and_eq_true] at h
    rw [Term.decls, List.mem_append, List.mem_append] at hx
    rcases hx with (hx | hx) | hx
    · exact decls_of_conforms hbinder href h.1.1 hbound x hx
    · exact decls_of_conforms hbinder href h.1.2 hbound x hx
    · exact decls_of_conforms hbinder href h.2 hbound x hx
  | .call f args, bound, h, hbound, x, hx => by
    rw [Term.conforms, Bool.and_eq_true] at h
    rw [Term.decls] at hx
    exact decls_of_conformsAll hbinder href h.2 hbound x hx

theorem decls_of_conformsAll (hbinder : ∀ x, u.binder x = true → P x)
    (href : ∀ bound x, u.ref bound x = true → x ∈ bound ∨ P x) :
    ∀ {ts : List Term} {bound : List DeclId}, Term.conformsAll u bound ts = true →
      (∀ x ∈ bound, P x) → ∀ x ∈ Term.declsList ts, P x
  | [], bound, _, _, x, hx => by simp [Term.declsList] at hx
  | t :: ts, bound, h, hbound, x, hx => by
    rw [Term.conformsAll, Bool.and_eq_true] at h
    rw [Term.declsList, List.mem_append] at hx
    rcases hx with hx | hx
    · exact decls_of_conforms hbinder href h.1 hbound x hx
    · exact decls_of_conformsAll hbinder href h.2 hbound x hx
end

end Terms

/-! ## Scripts that are read -/

section Scripts

variable {s : Script}

theorem understood_implies_closed (hc : s.Coherent) (limit : Nat) :
    (s.understood limit).Implies s.closedUsage (s.understood limit).Binds where
  name _ := rfl
  sort h := h
  binder h := by
    obtain ⟨name, sort, hd, _, hsort⟩ := binder_understood h
    simp [closedUsage, hd, Declaration.kind, Declaration.sort, hsort]
  ref := by
    intro bound bound' id hbound hid
    obtain ⟨rfl, _⟩ := hbound
    simp only [understood, Bool.and_eq_true, Bool.or_eq_true] at hid
    simp only [closedUsage, Bool.or_eq_true, List.contains_iff_mem] at hid ⊢
    exact hid.1.1.1.imp_right fun h => (mem_topLevel hc).mpr (exists_of_precedes h)
  call := by
    intro f args hcall
    simp only [understood, closedUsage, Bool.and_eq_true, Option.any_eq_true,
      List.contains_iff_mem] at hcall ⊢
    obtain ⟨_, id, hid, hprecedes⟩ := hcall
    exact ⟨id, hid, (mem_topLevel hc).mpr (exists_of_precedes hprecedes)⟩
  closed := Usage.binds_nil _
  enter := Usage.Binds.enter

theorem Understood.conforms_closed (h : s.Understood) :
    s.conforms (fun _ => s.closedUsage) (fun _ => true) = true :=
  conforms_mono (understood_implies_closed h.coherent) (fun _ _ => rfl) h.conforms

theorem binder_closedUsage {id : DeclId} (h : s.closedUsage.binder id = true) :
    ∃ name sort, s.arena[id.index]? = some (.variable name sort) ∧
      sort.known s.declaresSort = true := by
  simp only [closedUsage, Option.any_eq_true, Bool.and_eq_true, decide_eq_true_eq] at h
  obtain ⟨d, hd, hkind, hsort⟩ := h
  cases d with
  | function | constant | definition => cases hkind
  | _ name sort => exact ⟨name, sort, hd, hsort⟩

theorem lt_of_getElem? {i : Nat} {d : Declaration} (h : s.arena[i]? = some d) : i < s.arena.size :=
  (Array.getElem?_eq_some_iff.mp h).1

theorem lt_of_mem_topLevel (hc : s.Coherent) {id : DeclId} (h : id ∈ s.topLevel) :
    id.index < s.arena.size := by
  obtain ⟨d, hd, _⟩ := (mem_topLevel hc).mp h
  exact lt_of_getElem? hd

/-- A declaration of the arena that is no variable conforms to the usage. -/
theorem conforms_of_mem_arena (hc : s.Coherent) {u : Nat → Usage} {label : String → Bool}
    (h : s.conforms u label = true) {d : Declaration} (hd : d ∈ s.arena) (hkind : d.kind ≠ .variable) :
    ∃ i, d.conforms (u i) = true := by
  obtain ⟨i, hi⟩ := Array.mem_iff_getElem?.mp hd
  obtain ⟨e, he, hconf⟩ := (conforms_iff.mp h).2.1 ⟨i⟩ ((mem_topLevel hc).mpr ⟨d, hi, hkind⟩)
  rw [hi, Option.some.injEq] at he
  exact ⟨i, he ▸ hconf⟩

theorem positions_of_conforms (hc : s.Coherent)
    (h : s.conforms (fun _ => s.closedUsage) (fun _ => true) = true) :
    ∀ id ∈ s.held, id.index < s.arena.size := by
  have hbinder : ∀ x, s.closedUsage.binder x = true → x.index < s.arena.size := by
    intro x hx
    obtain ⟨name, sort, hd, _⟩ := binder_closedUsage hx
    exact lt_of_getElem? hd
  have href : ∀ bound x, s.closedUsage.ref bound x = true → x ∈ bound ∨ x.index < s.arena.size := by
    intro bound x hx
    simp only [closedUsage, Bool.or_eq_true, List.contains_iff_mem] at hx
    exact hx.imp_right (lt_of_mem_topLevel hc)
  intro id hid
  simp only [held, List.mem_append, List.mem_flatMap] at hid
  rcases hid with (hid | ⟨d, hd, hid⟩) | ⟨a, ha, hid⟩
  · exact lt_of_mem_topLevel hc hid
  · cases d with
    | definition name parameters output body =>
      obtain ⟨_, hconf⟩ := conforms_of_mem_arena hc h (Array.mem_toList_iff.mp hd)
        fun hk => by cases hk
      simp only [Declaration.conforms, Bool.and_eq_true, List.all_eq_true] at hconf
      have hparameters : ∀ p ∈ parameters, p.index < s.arena.size := fun p hp =>
        hbinder p (hconf.1.1.2 p hp)
      rw [Declaration.held, List.mem_append] at hid
      rcases hid with hid | hid
      · exact hparameters id hid
      · exact decls_of_conforms hbinder href hconf.2
          (fun p hp => hparameters p (List.mem_reverse.mp hp)) id hid
    | _ => simp [Declaration.held] at hid
  · exact decls_of_conforms hbinder href ((conforms_iff.mp h).2.2 a ha).2 (List.forall_mem_nil _) id
      hid

/-- What is bound somewhere is a variable of a known sort. -/
theorem binder_of_mem_binders (hc : s.Coherent)
    (h : s.conforms (fun _ => s.closedUsage) (fun _ => true) = true) {id : DeclId}
    (hid : id ∈ s.binders) : s.closedUsage.binder id = true := by
  simp only [binders, List.mem_append, List.mem_flatMap] at hid
  rcases hid with ⟨d, hd, hid⟩ | ⟨a, ha, hid⟩
  · cases d with
    | definition name parameters output body =>
      obtain ⟨_, hconf⟩ := conforms_of_mem_arena hc h (Array.mem_toList_iff.mp hd)
        fun hk => by cases hk
      simp only [Declaration.conforms, Bool.and_eq_true, List.all_eq_true] at hconf
      rw [Declaration.binders, List.mem_append] at hid
      rcases hid with hid | hid
      · exact hconf.1.1.2 id hid
      · exact binder_of_conforms hconf.2 id hid
    | _ => simp [Declaration.binders] at hid
  · exact binder_of_conforms ((conforms_iff.mp h).2.2 a ha).2 id hid

theorem sorts_of_conforms (hc : s.Coherent)
    (h : s.conforms (fun _ => s.closedUsage) (fun _ => true) = true)
    (hbound : s.binders.Perm (s.entries .variable)) :
    ∀ d ∈ s.arena, ∀ sort ∈ d.ownSorts, sort.known s.declaresSort = true := by
  intro d hd sort hsort
  cases d with
  | function name inputs output =>
    obtain ⟨_, hconf⟩ := conforms_of_mem_arena hc h hd fun hk => by cases hk
    simp only [Declaration.conforms, Bool.and_eq_true, List.all_eq_true] at hconf
    rw [Declaration.ownSorts, List.mem_append, List.mem_singleton] at hsort
    rcases hsort with hsort | rfl
    · exact hconf.1.2 sort hsort
    · exact hconf.2
  | constant name _ =>
    obtain ⟨_, hconf⟩ := conforms_of_mem_arena hc h hd fun hk => by cases hk
    rw [Declaration.conforms, Bool.and_eq_true] at hconf
    rw [Declaration.ownSorts, List.mem_singleton] at hsort
    exact hsort ▸ hconf.2
  | definition name parameters output body =>
    obtain ⟨_, hconf⟩ := conforms_of_mem_arena hc h hd fun hk => by cases hk
    simp only [Declaration.conforms, Bool.and_eq_true] at hconf
    rw [Declaration.ownSorts, List.mem_singleton] at hsort
    exact hsort ▸ hconf.1.2
  | _ name sort' =>
    -- a variable is bound somewhere, and there its sort was checked
    obtain ⟨i, hi⟩ := Array.mem_iff_getElem?.mp hd
    have hid : (⟨i⟩ : DeclId) ∈ s.entries .variable := variable_mem_entries.mpr ⟨name, sort', hi⟩
    obtain ⟨_, _, hd', hknown⟩ :=
      binder_closedUsage (binder_of_mem_binders hc h (hbound.mem_iff.mpr hid))
    rw [hi, Option.some.injEq, Declaration.variable.injEq] at hd'
    rw [Declaration.ownSorts, List.mem_singleton] at hsort
    rw [hsort, hd'.2]
    exact hknown

theorem closed_of_read {dialect : Dialect} {text : String} (h : read dialect text = .ok s) :
    s.Closed := by
  have hs := understood_of_read h
  have hconf := hs.conforms_closed
  have hbound := binders_perm_of_read h
  exact ⟨hs.coherent.indexed, positions_of_conforms hs.coherent hconf,
    sorts_of_conforms hs.coherent hconf hbound, hconf, hbound⟩

end Scripts

theorem proper_read (dialect : Dialect) (text : String) : Reader.Proper (read dialect text) := by
  refine Reader.proper_bind (Reader.proper_mapError fun _ _ => rfl) fun ts hts => ?_
  refine Reader.proper_bind (Reader.proper_mapError fun _ _ => rfl) fun items hitems => ?_
  rw [ofSExprs_eq_attach]
  refine Reader.proper_bind ?_ fun _ _ => Reader.proper_ok _
  exact Reader.proper_readCommands understood_empty (by simp)
    (Reader.isLexicalAll_unwrap (isLexicalAll_of_tokens hts hitems))

/-- A text of either dialect is read as a closed script, or refused for what it
says. -/
theorem read_closed_or_refused (dialect : Dialect) (text : String) :
    match read dialect text with
    | .ok s => s.Closed
    | .error e => e.isProper = true := by
  cases h : read dialect text with
  | ok s => exact closed_of_read h
  | error e => exact proper_read dialect text e h

end Script

end TupleLogic
