import TupleLogic.Proofs.FormulaEncoding

/-! Quantifiers. The variables that encode a list of bindings, together with
their guards, take exactly the values that the bindings allow. A quantifier
over such variables therefore says of the body what the quantifier of the
source says; uniqueness runs the bindings and the body twice, on different
variables. -/

namespace TupleLogic.Encoding

open Relational Encoder

variable {v : Vocabulary} {scope : Scope} {p q s : Progress}

/-- Atoms as the values of variables. -/
def atomValues {α E : Type} (ι : α → E) (atoms : List α) : List (TermValue E) :=
  atoms.map fun a => .datum (.elem (ι a))

theorem atomValues_injective {α E : Type} {ι : α → E} (hι : Function.Injective ι) :
    Function.Injective (atomValues ι) :=
  List.map_injective_iff.mpr fun _ _ h => hι (Datum.elem.inj (TermValue.datum.inj h))

/-! ## Bindings -/

/-- Variables for names that all range over the set that the term `set` is. -/
structure BindsNames (v : Vocabulary) (set : Term) (names : List String) (scope : Scope)
    (p : Progress) (b : Bound) (q : Progress) : Prop where
  grows : p.script.AddsVariables q.script
  scopeIn : ScopeIn q.script b.scope
  nodup : b.vars.Nodup
  length : b.vars.length = names.length
  fresh : ∀ x ∈ b.vars, p.script.arena.size ≤ x.index ∧ x.index < q.script.arena.size
  below : ∀ {f : Script}, q.script.Extends f → set.Below f p.script.arena.size →
    ∀ g ∈ b.guards, g.Below f q.script.arena.size
  sound : ∀ {f : Script} {α E : Type} {ι : α → E} {I : Instance α} {M : Structure E}
    {r : Relation α} {vs : List (TermValue E)}, q.script.Extends f → Interprets v f ι I M →
    set.Below f p.script.arena.size → set.eval f M = relationValue ι r → M.Fits f b.vars vs →
    (∀ g ∈ b.guards, g.Holds f (M.assign b.vars vs)) →
      ∃ atoms, vs = atomValues ι atoms ∧ atoms.length = names.length ∧ ∀ a ∈ atoms, [.atom a] ∈ r
  complete : ∀ {f : Script} {α E : Type} {ι : α → E} {I : Instance α} {M : Structure E}
    {env : Env α} {r : Relation α} {atoms : List α}, q.script.Extends f → Interprets v f ι I M →
    Matches ι M scope env → set.Below f p.script.arena.size → set.eval f M = relationValue ι r →
    atoms.length = names.length → (∀ a ∈ atoms, [.atom a] ∈ r) →
      M.Fits f b.vars (atomValues ι atoms) ∧
        (∀ g ∈ b.guards, g.Holds f (M.assign b.vars (atomValues ι atoms))) ∧
        Matches ι (M.assign b.vars (atomValues ι atoms)) b.scope (env.bind names atoms)

theorem bindsNames_nil {set : Term} (hs : ScopeIn p.script scope) :
    BindsNames v set [] scope p ⟨[], [], scope⟩ p where
  grows := .refl _
  scopeIn := hs
  nodup := .nil
  length := rfl
  fresh := nofun
  below _ _ := nofun
  sound _ _ _ _ hfit _ := by
    cases hfit
    exact ⟨[], rfl, rfl, nofun⟩
  complete {f α E ι I M env r atoms} _ _ hmatch _ _ hlen _ := by
    obtain rfl := List.length_eq_zero_iff.mp hlen
    exact ⟨.nil, nofun, hmatch⟩

/-- The guard of a new variable says that its atom is in the set. -/
theorem holds_guard {α E : Type} {f : Script} {ι : α → E} {M : Structure E} {set : Term}
    {r : Relation α} {a : α} (hι : Function.Injective ι)
    (hset : set.eval f M = relationValue ι r) (hbelow : set.Below f p.script.arena.size) :
    (Term.member (.nary .tuple [.ref p.script.nextId]) set).Holds f
      (M.set p.script.nextId (.datum (.elem (ι a)))) ↔ [.atom a] ∈ r := by
  have hnew : M.Agrees p.script.arena.size (M.set p.script.nextId (.datum (.elem (ι a)))) :=
    M.agrees_set _ (Nat.le_refl _)
  rw [Term.holds_member, ← Term.eval_congr set hbelow hnew, hset, Term.eval_tuple, List.map_cons,
    List.map_nil, Term.eval_ref, Structure.meaning_set_self]
  exact tuple_mem_relationValue (t := [.atom a]) hι

theorem bindsNames_cons {set : Term} {name : String} {names : List String} {b : Bound}
    (hv : Declared v p.script) (hs : ScopeIn p.script scope)
    (h : BindsNames v set names ((name, p.script.nextId) :: scope) (p.withVariable .atom) b q) :
    BindsNames v set (name :: names) scope p ⟨p.script.nextId :: b.vars,
      .member (.nary .tuple [.ref p.script.nextId]) set :: b.guards, b.scope⟩ q := by
  have hgrows := p.withVariable_grows .atom
  have hsize := p.withVariable_size .atom
  have hnext : p.script.nextId.index = p.script.arena.size := rfl
  have hlt := h.grows.extension.size_le
  have hset : ∀ {f}, set.Below f p.script.arena.size →
      set.Below f (p.withVariable .atom).script.arena.size := fun hb => hb.mono (by omega)
  have hnew : ∀ {E : Type} (M : Structure E) w,
      M.Agrees p.script.arena.size (M.set p.script.nextId w) := fun M w =>
    M.agrees_set w (Nat.le_refl _)
  -- The first guard does not see the values of later variables.
  have hlater : ∀ {f : Script} {E : Type} (M : Structure E) (w : TermValue E) (vs : List (TermValue E)),
      set.Below f p.script.arena.size →
      ((Term.member (.nary .tuple [.ref p.script.nextId]) set).Holds f
          ((M.set p.script.nextId w).assign b.vars vs) ↔
        (Term.member (.nary .tuple [.ref p.script.nextId]) set).Holds f
          (M.set p.script.nextId w)) := fun M w vs hb => by
    refine (Term.holds_congr ?_ (Structure.agrees_assign _ vs fun x hx => (h.fresh x hx).1)).symm
    exact ⟨⟨by rw [hsize]; exact Nat.lt_succ_self _, trivial⟩, hset hb⟩
  refine ⟨hgrows.trans h.grows, h.scopeIn, ?_, congrArg (· + 1) h.length, ?_, ?_, ?_, ?_⟩
  · refine List.nodup_cons.mpr ⟨fun hx => ?_, h.nodup⟩
    have := (h.fresh _ hx).1
    omega
  · intro x hx
    rcases List.mem_cons.mp hx with rfl | hx
    · omega
    · have := h.fresh x hx
      omega
  · intro f hf hb g hg
    rcases List.mem_cons.mp hg with rfl | hg
    · have hx : p.script.nextId.index < q.script.arena.size := by omega
      exact ⟨⟨hx, trivial⟩, (hset hb).mono hlt⟩
    · exact h.below hf (hset hb) g hg
  · intro f α E ι I M r vs hf hM hb hval hfit hguards
    have hpf := hgrows.extension.trans (h.grows.extension.trans hf)
    obtain ⟨w, ws, hw, hws, rfl⟩ := List.forall₂_cons_left_iff.mp hfit
    rw [inDomain_withVariable (h.grows.extension.trans hf)] at hw
    obtain ⟨u, hu, rfl⟩ := hasSort_named.mp hw
    rw [hM.atoms] at hu
    obtain ⟨a, rfl⟩ := hu
    rw [List.forall_mem_cons] at hguards
    have ha := (holds_guard hM.injective hval hb).mp ((hlater M _ ws hb).mp hguards.1)
    obtain ⟨atoms, rfl, hlen, hatoms⟩ := h.sound hf (hM.agrees hv hpf (hnew M _)) (hset hb)
      ((Term.eval_congr set hb (hnew M _)).symm.trans hval) hws hguards.2
    exact ⟨a :: atoms, rfl, congrArg (· + 1) hlen, List.forall_mem_cons.mpr ⟨ha, hatoms⟩⟩
  · intro f α E ι I M env r atoms hf hM hmatch hb hval hlen hatoms
    have hpf := hgrows.extension.trans (h.grows.extension.trans hf)
    cases atoms with
    | nil => cases hlen
    | cons a atoms =>
      rw [List.forall_mem_cons] at hatoms
      have hmatch' : Matches ι (M.set p.script.nextId (.datum (.elem (ι a))))
          ((name, p.script.nextId) :: scope) ((name, a) :: env) :=
        .cons ⟨rfl, Structure.meaning_set_self ..⟩ (hmatch.agrees hs (hnew M _))
      obtain ⟨hfit, hguards, hmatched⟩ := h.complete hf (hM.agrees hv hpf (hnew M _)) hmatch'
        (hset hb) ((Term.eval_congr set hb (hnew M _)).symm.trans hval) (Nat.succ.inj hlen) hatoms.2
      refine ⟨.cons ?_ hfit, List.forall_mem_cons.mpr ⟨?_, hguards⟩, ?_⟩
      · rw [inDomain_withVariable (h.grows.extension.trans hf)]
        exact hasSort_named.mpr ⟨ι a, hM.atoms ▸ ⟨a, rfl⟩, rfl⟩
      · exact (hlater M _ _ hb).mpr ((holds_guard hM.injective hval hb).mpr hatoms.1)
      · have hbind : env.bind (name :: names) (a :: atoms) =
            Env.bind ((name, a) :: env) names atoms := by
          simp [Env.bind]
        rw [hbind]
        exact hmatched

theorem bindNames_returns {set : Term} {names : List String} {b : Bound}
    (hv : Declared v p.script) (hs : ScopeIn p.script scope)
    (h : Returns (bindNames set names scope) p b q) : BindsNames v set names scope p b q := by
  induction names generalizing p scope b with
  | nil =>
    obtain ⟨rfl, rfl⟩ := returns_pure.mp h
    exact bindsNames_nil hs
  | cons name names ih =>
    simp only [bindNames, returns_bind, returns_freshVariable, returns_liftTerm, returns_pure] at h
    obtain ⟨_, _, ⟨rfl, rfl⟩, _, _, ⟨ht, rfl⟩, rest, _, hrest, rfl, rfl⟩ := h
    rw [mkTuple_eq_ok ht]
    have hext := (p.withVariable_grows .atom).extension
    refine bindsNames_cons hv hs (ih (hv.extend hext) ?_ hrest)
    refine List.forall_mem_cons.mpr ⟨?_, hs.extend hext⟩
    exact p.withVariable_decl (.refl _)

/-- The variables and guards of a list of bindings. -/
structure Binds (v : Vocabulary) (scope : Scope) (bs : List (Binding Expr)) (p : Progress)
    (b : Bound) (q : Progress) : Prop where
  grows : p.script.AddsVariables q.script
  scopeIn : ScopeIn q.script b.scope
  nodup : b.vars.Nodup
  length : b.vars.length = (bs.flatMap Binding.names).length
  fresh : ∀ x ∈ b.vars, p.script.arena.size ≤ x.index ∧ x.index < q.script.arena.size
  below : ∀ {f : Script}, q.script.Extends f → ∀ g ∈ b.guards, g.Below f q.script.arena.size
  sound : ∀ {f : Script} {α E : Type} {ι : α → E} {I : Instance α} {M : Structure E} {env : Env α}
    {vs : List (TermValue E)}, q.script.Extends f → Interprets v f ι I M → Matches ι M scope env →
    M.Fits f b.vars vs → (∀ g ∈ b.guards, g.Holds f (M.assign b.vars vs)) →
      ∃ atoms env', vs = atomValues ι atoms ∧ I.Assigns bs env atoms env'
  complete : ∀ {f : Script} {α E : Type} {ι : α → E} {I : Instance α} {M : Structure E}
    {env env' : Env α} {atoms : List α}, q.script.Extends f → Interprets v f ι I M →
    Matches ι M scope env → I.Assigns bs env atoms env' →
      M.Fits f b.vars (atomValues ι atoms) ∧
        (∀ g ∈ b.guards, g.Holds f (M.assign b.vars (atomValues ι atoms))) ∧
        Matches ι (M.assign b.vars (atomValues ι atoms)) b.scope env'

theorem binds_nil (hs : ScopeIn p.script scope) : Binds v scope [] p ⟨[], [], scope⟩ p where
  grows := .refl _
  scopeIn := hs
  nodup := .nil
  length := rfl
  fresh := nofun
  below _ := nofun
  sound _ _ _ hfit _ := by
    cases hfit
    exact ⟨[], _, rfl, .nil⟩
  complete _ _ hmatch hatoms := by
    cases hatoms
    exact ⟨.nil, nofun, hmatch⟩

theorem binds_cons {group : Binding Expr} {bs : List (Binding Expr)} {set : Term} {b c : Bound}
    (hv : Declared v p.script) (hset : EncodesRelation v p.script scope group.bound [.atom] set)
    (h : BindsNames v set group.names scope p b s) (hrest : Binds v b.scope bs s c q) :
    Binds v scope (group :: bs) p ⟨b.vars ++ c.vars, b.guards ++ c.guards, c.scope⟩ q := by
  have hsq := hrest.grows.extension.size_le
  have hps := h.grows.extension.size_le
  -- The guards of the first group do not see the values of the later groups.
  have hlater : ∀ {f : Script} {E : Type} (M : Structure E) (vs : List (TermValue E)),
      s.script.Extends f → ((∀ g ∈ b.guards, g.Holds f (M.assign c.vars vs)) ↔
        ∀ g ∈ b.guards, g.Holds f M) := fun M vs hf => by
    refine forall₂_congr fun g hg => (Term.holds_congr (h.below hf ?_ g hg) ?_).symm
    · exact hset.below (h.grows.extension.trans hf)
    · exact M.agrees_assign vs fun x hx => (hrest.fresh x hx).1
  refine ⟨h.grows.trans hrest.grows, hrest.scopeIn, ?_, ?_, ?_, ?_, ?_, ?_⟩
  · refine List.Nodup.append h.nodup hrest.nodup fun x hx hx' => ?_
    have := h.fresh x hx
    have := hrest.fresh x hx'
    omega
  · rw [List.length_append, h.length, hrest.length, List.flatMap_cons, List.length_append]
  · intro x hx
    rcases List.mem_append.mp hx with hx | hx
    · have := h.fresh x hx
      omega
    · have := hrest.fresh x hx
      omega
  · intro f hf g hg
    have hsf := hrest.grows.extension.trans hf
    rcases List.mem_append.mp hg with hg | hg
    · exact (h.below hsf (hset.below (h.grows.extension.trans hsf)) g hg).mono hsq
    · exact hrest.below hf g hg
  · intro f α E ι I M env vs hf hM hmatch hfit hguards
    have hsf := hrest.grows.extension.trans hf
    have hpf := h.grows.extension.trans hsf
    obtain ⟨us, ws, rfl, hus, hws⟩ := fits_append.mp hfit
    rw [M.assign_append hus.length_eq, List.forall_mem_append, hlater _ _ hsf] at hguards
    obtain ⟨atoms, rfl, hlen, hatoms⟩ := h.sound hsf hM (hset.below hpf)
      (hset.value hpf hM hmatch) hus hguards.1
    obtain ⟨_, _, hmatch'⟩ := h.complete hsf hM hmatch (hset.below hpf) (hset.value hpf hM hmatch)
      hlen hatoms
    have hM' := hM.agrees hv hpf (M.agrees_assign (atomValues ι atoms) fun x hx => (h.fresh x hx).1)
    rw [Structure.fits_congr (M.carrier_assign b.vars (atomValues ι atoms)).symm] at hws
    obtain ⟨rest, env', rfl, hassigns⟩ := hrest.sound hf hM' hmatch' hws hguards.2
    exact ⟨atoms ++ rest, env', by rw [atomValues, atomValues, atomValues, List.map_append],
      .cons hlen hatoms hassigns⟩
  · intro f α E ι I M env env' all hf hM hmatch hassigns
    have hsf := hrest.grows.extension.trans hf
    have hpf := h.grows.extension.trans hsf
    cases hassigns with
    | @cons _ _ _ _ atoms rest hlen hatoms hassigns =>
      obtain ⟨hus, hguards, hmatch'⟩ := h.complete hsf hM hmatch (hset.below hpf)
        (hset.value hpf hM hmatch) hlen hatoms
      have hM' := hM.agrees hv hpf
        (M.agrees_assign (atomValues ι atoms) fun x hx => (h.fresh x hx).1)
      obtain ⟨hws, hguards', hmatch''⟩ := hrest.complete hf hM' hmatch' hassigns
      rw [Structure.fits_congr (M.carrier_assign b.vars (atomValues ι atoms))] at hws
      have happend : atomValues ι (atoms ++ rest) = atomValues ι atoms ++ atomValues ι rest :=
        List.map_append
      rw [happend, M.assign_append hus.length_eq]
      refine ⟨fits_append.mpr ⟨_, _, rfl, hus, hws⟩, List.forall_mem_append.mpr ⟨?_, hguards'⟩,
        hmatch''⟩
      exact (hlater _ _ hsf).mpr hguards

theorem boundSet_returns {expr : String} {e : Expr} {set : Term}
    (ht : HasColumns v.model e [.atom]) (hv : Declared v p.script) (hs : ScopeIn p.script scope)
    (h : Returns (boundSet expr (encode v e scope .nested)) p set q) :
    q = p ∧ EncodesRelation v p.script scope e [.atom] set := by
  simp only [boundSet, returns_bind, returns_sortOf] at h
  obtain ⟨r, _, hr, sort, _, ⟨_, rfl⟩, h⟩ := h
  obtain ⟨rfl, _, hset⟩ := plainRelation_encode ht hv hs hr
  split at h
  · obtain ⟨rfl, rfl⟩ := returns_pure.mp h
    exact ⟨rfl, hset⟩
  · exact (not_returns_unsupported h).elim

theorem encodeBindings_returns {bs : List (Binding Expr)} {b : Bound}
    (ht : ∀ g ∈ bs, HasColumns v.model g.bound [.atom]) (hv : Declared v p.script)
    (hs : ScopeIn p.script scope) (h : Returns (encodeBindings v bs scope) p b q) :
    Binds v scope bs p b q := by
  induction bs generalizing p scope b with
  | nil =>
    obtain ⟨rfl, rfl⟩ := returns_pure.mp h
    exact binds_nil hs
  | cons group bs ih =>
    simp only [encodeBindings, returns_bind, returns_pure] at h
    obtain ⟨set, _, hset, first, s, hfirst, rest, _, hrest, rfl, rfl⟩ := h
    obtain ⟨rfl, hset⟩ := boundSet_returns (ht group List.mem_cons_self) hv hs hset
    have hfirst := bindNames_returns hv hs hfirst
    refine binds_cons hv hset hfirst (ih (fun g hg => ht g (List.mem_cons_of_mem _ hg)) ?_ ?_ hrest)
    · exact hv.extend hfirst.grows.extension
    · exact hfirst.scopeIn

/-! ## Quantifiers -/

section Quantifiers

variable {bs : List (Binding Expr)} {b : Bound} {body : Expr} {f : Script} {α E : Type}
  {ι : α → E} {I : Instance α} {M : Structure E} {env : Env α}

/-- What holds for all values that satisfy the guards holds for all atoms that
the bindings allow. -/
theorem Binds.forall_iff (h : Binds v scope bs p b q) (hf : q.script.Extends f)
    (hM : Interprets v f ι I M) (hmatch : Matches ι M scope env) {P : Structure E → Prop}
    {Q : List α → Env α → Prop} (hPQ : ∀ {atoms env'}, I.Assigns bs env atoms env' →
      (P (M.assign b.vars (atomValues ι atoms)) ↔ Q atoms env')) :
    (∀ vs, M.Fits f b.vars vs → (∀ g ∈ b.guards, g.Holds f (M.assign b.vars vs)) →
      P (M.assign b.vars vs)) ↔ ∀ atoms env', I.Assigns bs env atoms env' → Q atoms env' := by
  constructor
  · intro hall atoms env' ha
    obtain ⟨hfit, hguards, _⟩ := h.complete hf hM hmatch ha
    exact (hPQ ha).mp (hall _ hfit hguards)
  · intro hall vs hfit hguards
    obtain ⟨atoms, env', rfl, ha⟩ := h.sound hf hM hmatch hfit hguards
    exact (hPQ ha).mpr (hall atoms env' ha)

theorem Binds.exists_iff (h : Binds v scope bs p b q) (hf : q.script.Extends f)
    (hM : Interprets v f ι I M) (hmatch : Matches ι M scope env) {P : Structure E → Prop}
    {Q : List α → Env α → Prop} (hPQ : ∀ {atoms env'}, I.Assigns bs env atoms env' →
      (P (M.assign b.vars (atomValues ι atoms)) ↔ Q atoms env')) :
    (∃ vs, M.Fits f b.vars vs ∧ (∀ g ∈ b.guards, g.Holds f (M.assign b.vars vs)) ∧
      P (M.assign b.vars vs)) ↔ ∃ atoms env', I.Assigns bs env atoms env' ∧ Q atoms env' := by
  constructor
  · rintro ⟨vs, hfit, hguards, hP⟩
    obtain ⟨atoms, env', rfl, ha⟩ := h.sound hf hM hmatch hfit hguards
    exact ⟨atoms, env', ha, (hPQ ha).mp hP⟩
  · rintro ⟨atoms, env', ha, hQ⟩
    obtain ⟨hfit, hguards, _⟩ := h.complete hf hM hmatch ha
    exact ⟨_, hfit, hguards, (hPQ ha).mpr hQ⟩

/-- The body, for atoms that the bindings allow. -/
theorem Binds.body_truth {r : Encoded} [Nonempty α] (h : Binds v scope bs p b s)
    (hv : Declared v p.script) (hr : EncodesFormula v b.scope body s r q)
    (hf : q.script.Extends f) (hM : Interprets v f ι I M) (hmatch : Matches ι M scope env)
    (honto : InvolvesInt v.model body → Onto f M) {atoms : List α} {env' : Env α}
    (ha : I.Assigns bs env atoms env') :
    r.Truth f (M.assign b.vars (atomValues ι atoms)) ↔ I.Holds body env' := by
  have hsf := hr.grows.extension.trans hf
  have hpf := h.grows.extension.trans hsf
  have hnew := M.agrees_assign (atomValues ι atoms) fun x hx => (h.fresh x hx).1
  obtain ⟨_, _, hmatch'⟩ := h.complete hsf hM hmatch ha
  exact hr.truth hf (hM.agrees hv hpf hnew) hmatch' fun hi => (honto hi).agrees hv hpf hnew

/-- Neither the guards nor the body see what is declared later. -/
theorem Binds.below_guarded {r : Encoded} (h : Binds v scope bs p b s)
    (hr : EncodesFormula v b.scope body s r q) (hf : q.script.Extends f) :
    ∀ t ∈ b.guards ++ [r.term], t.Below f q.script.arena.size := by
  refine List.forall_mem_append.mpr ⟨fun g hg => ?_, List.forall_mem_singleton.mpr (hr.below hf)⟩
  exact (h.below (hr.grows.extension.trans hf) g hg).mono hr.grows.extension.size_le

/-- Variables are equal one by one if their values are the same list. -/
theorem holds_same {xs ys : List DeclId} (h : xs.length = ys.length) :
    (Term.conj (List.zipWith (fun x y => .equals (.ref x) (.ref y)) xs ys)).Holds f M ↔
      xs.map (fun x => M.meaning x []) = ys.map (fun y => M.meaning y []) := by
  rw [Term.holds_conj]
  induction xs generalizing ys with
  | nil =>
    rw [List.length_eq_zero_iff.mp h.symm]
    simp
  | cons x xs ih =>
    cases ys with
    | nil => cases h
    | cons y ys =>
      rw [List.zipWith_cons_cons, List.forall_mem_cons, ih (Nat.succ.inj h), List.map_cons,
        List.map_cons, List.cons.injEq, Term.holds_equals, Term.eval_ref, Term.eval_ref]

theorem below_same {n : Nat} {xs ys : List DeclId} (hx : ∀ x ∈ xs, x.index < n)
    (hy : ∀ y ∈ ys, y.index < n) :
    (Term.conj (List.zipWith (fun x y => .equals (.ref x) (.ref y)) xs ys)).Below f n := by
  refine Term.below_conj fun t ht => ?_
  obtain ⟨i, hi, rfl⟩ := List.getElem_of_mem ht
  rw [List.getElem_zipWith]
  exact ⟨hx _ (List.getElem_mem _), hy _ (List.getElem_mem _)⟩

/-- Two blocks of variables under one quantifier are two quantifiers, where what
is supposed of the first block does not see the second. -/
theorem forall_pairs_iff {n : Nat} {xs ys : List DeclId} {firsts seconds : List Term}
    (hlength : xs.length = ys.length) (hfirsts : ∀ t ∈ firsts, t.Below f n)
    (hys : ∀ y ∈ ys, n ≤ y.index) :
    (∀ vs, M.Fits f (xs ++ ys) vs →
      (conjNontrivial (firsts ++ seconds)).Holds f (M.assign (xs ++ ys) vs) →
      (Term.conj (List.zipWith (fun x y => .equals (.ref x) (.ref y)) xs ys)).Holds f
        (M.assign (xs ++ ys) vs)) ↔
      ∀ us, M.Fits f xs us → (∀ t ∈ firsts, t.Holds f (M.assign xs us)) →
        ∀ ws, (M.assign xs us).Fits f ys ws →
          (∀ t ∈ seconds, t.Holds f ((M.assign xs us).assign ys ws)) →
          ys.map (fun y => ((M.assign xs us).assign ys ws).meaning y []) =
            xs.map (fun x => ((M.assign xs us).assign ys ws).meaning x []) := by
  have hframe : ∀ us ws, (∀ t ∈ firsts, t.Holds f ((M.assign xs us).assign ys ws)) ↔
      ∀ t ∈ firsts, t.Holds f (M.assign xs us) := fun us ws =>
    forall₂_congr fun t ht =>
      (Term.holds_congr (hfirsts t ht) (Structure.agrees_assign _ ws hys)).symm
  constructor
  · intro h us hus hfirst ws hws hsecond
    rw [Structure.fits_congr (M.carrier_assign _ _)] at hws
    have hsame := h _ (fits_append.mpr ⟨us, ws, rfl, hus, hws⟩)
    rw [M.assign_append hus.length_eq, holds_conjNontrivial, List.forall_mem_append, hframe,
      holds_same hlength] at hsame
    exact (hsame ⟨hfirst, hsecond⟩).symm
  · intro h vs hvs
    obtain ⟨us, ws, rfl, hus, hws⟩ := fits_append.mp hvs
    rw [M.assign_append hus.length_eq, holds_conjNontrivial, List.forall_mem_append, hframe,
      holds_same hlength]
    rw [← Structure.fits_congr (M.carrier_assign xs us)] at hws
    exact fun hboth => (h us hus hboth.1 ws hws hboth.2).symm

/-- A second run of the bindings and the body: no other atoms satisfy the body
than those that the first variables `xs` stand for. -/
theorem Binds.unique_iff [Nonempty α] {xs : List DeclId} {again : Term} {atoms : List α}
    (h : Binds v scope bs p b s) (hv : Declared v p.script)
    (hr : EncodesFormula v b.scope body s ⟨again, []⟩ q) (hf : q.script.Extends f)
    (hM : Interprets v f ι I M) (hmatch : Matches ι M scope env)
    (honto : InvolvesInt v.model body → Onto f M) (hxs : ∀ x ∈ xs, x.index < p.script.arena.size)
    (hvalues : xs.map (fun x => M.meaning x []) = atomValues ι atoms) :
    (∀ vs, M.Fits f b.vars vs → (∀ g ∈ b.guards, g.Holds f (M.assign b.vars vs)) →
      again.Holds f (M.assign b.vars vs) → b.vars.map (fun y => (M.assign b.vars vs).meaning y []) =
        xs.map (fun x => (M.assign b.vars vs).meaning x [])) ↔
      ∀ atoms' env', I.Assigns bs env atoms' env' → I.Holds body env' → atoms' = atoms := by
  have hsf := hr.grows.extension.trans hf
  refine h.forall_iff hsf hM hmatch (P := fun N => again.Holds f N →
    b.vars.map (fun y => N.meaning y []) = xs.map (fun x => N.meaning x [])) fun {atoms'} _ ha => ?_
  refine imp_congr (h.body_truth hv hr hf hM hmatch honto ha) ?_
  obtain ⟨hfit, _, _⟩ := h.complete hsf hM hmatch ha
  have hsame : xs.map (fun x => (M.assign b.vars (atomValues ι atoms')).meaning x []) =
      xs.map (fun x => M.meaning x []) := by
    refine List.map_congr_left fun x hx => ?_
    have hnew := M.agrees_assign (atomValues ι atoms') fun x hx => (h.fresh x hx).1
    rw [hnew.2 x (hxs x hx)]
  rw [hsame, hvalues, M.map_meaning_assign h.nodup hfit.length_eq]
  exact (atomValues_injective hM.injective).eq_iff

theorem Binds.vars_ne_nil (h : Binds v scope bs p b q) (hne : bs.flatMap Binding.names ≠ []) :
    b.vars ≠ [] := by
  intro hnil
  have hlen := h.length
  rw [hnil] at hlen
  exact hne (List.length_eq_zero_iff.mp hlen.symm)

/-- A universal claim: `build` makes it of the body, as `claim` does of the
body's truth. -/
theorem forAll_meaning {qu : Relational.Quantifier} {t u : Term} (build : Term → Term)
    (claim : Prop → Prop) (hv : Declared v p.script) (h : Binds v scope bs p b s)
    (hr : EncodesFormula v b.scope body s ⟨t, []⟩ q)
    (hu : Term.forAll b.vars (.implies (.conj b.guards) (build t)) = .ok u)
    (hbelow : ∀ {f n}, t.Below f n → (build t).Below f n)
    (hbuild : ∀ {f : Script} {E : Type} {M : Structure E},
      (build t).Holds f M ↔ claim (t.Holds f M))
    (he : ∀ {α : Type} {I : Instance α} {env : Env α}, I.Holds (.quantified qu bs body) env ↔
      ∀ atoms env', I.Assigns bs env atoms env' → claim (I.Holds body env')) :
    EncodesFormula v scope (.quantified qu bs body) p ⟨u, []⟩ q := by
  rw [forAll_eq_ok hu]
  have hgrows := h.grows.trans hr.grows
  refine ⟨hgrows, fun _ => .nil hgrows.extension.size_le, fun hf => ⟨?_, hbelow (hr.below hf)⟩,
    fun _ _ => ⟨_, rfl⟩, ?_⟩
  · exact Term.below_conj fun g hg => h.below_guarded hr hf g (List.mem_append_left _ hg)
  · intro f α E ι I M env _ hf hM hmatch honto
    rw [he, ← h.forall_iff (hr.grows.extension.trans hf) hM hmatch
      (P := fun N => (build t).Holds f N) fun ha => ?_]
    · refine (Term.holds_all _ _).trans (forall₂_congr fun vs _ => ?_)
      rw [Term.holds_implies, Term.holds_conj]
    · rw [hbuild, ← h.body_truth hv hr hf hM hmatch (fun hi => honto hi.quantified) ha]
      exact Iff.rfl

/-- Some atoms satisfy the body, and no others do. -/
theorem holds_one_iff : I.Holds (.quantified .one bs body) env ↔
    ∃ atoms env', I.Assigns bs env atoms env' ∧ (I.Holds body env' ∧
      ∀ atoms' env'', I.Assigns bs env atoms' env'' → I.Holds body env'' → atoms' = atoms) := by
  refine exists_congr fun atoms => Set.eq_singleton_iff_unique_mem.trans ?_
  constructor
  · rintro ⟨⟨env', ha, hb⟩, huniq⟩
    exact ⟨env', ha, hb, fun atoms' env'' ha' hb' => huniq atoms' ⟨env'', ha', hb'⟩⟩
  · rintro ⟨env', ha, hb, huniq⟩
    exact ⟨⟨env', ha, hb⟩, fun atoms' ⟨env'', ha', hb'⟩ => huniq atoms' env'' ha' hb'⟩

theorem holds_lone_iff : I.Holds (.quantified .lone bs body) env ↔
    ∀ atoms env', I.Assigns bs env atoms env' → (I.Holds body env' →
      ∀ atoms' env'', I.Assigns bs env atoms' env'' → I.Holds body env'' → atoms' = atoms) := by
  constructor
  · intro h atoms env' ha hb atoms' env'' ha' hb'
    exact h ⟨env'', ha', hb'⟩ ⟨env', ha, hb⟩
  · rintro h atoms ⟨env', ha, hb⟩ atoms' ⟨env'', ha', hb'⟩
    exact h atoms' env'' ha' hb' atoms env' ha hb

variable {enc : Scope → Encoder Encoded} (ht : ∀ g ∈ bs, HasColumns v.model g.bound [.atom])
  (hbody : ∀ inner, Meaning v inner body (enc inner))

include ht hbody

theorem all_meaning : Meaning v scope (.quantified .all bs body)
    (quantify .all (encodeBindings v bs scope) enc) := by
  intro p r q hv hs h
  simp only [quantify, returns_bind, returns_liftTerm, returns_pure] at h
  obtain ⟨xs, s, hxs, t, _, hr, u, _, ⟨hu, rfl⟩, rfl, rfl⟩ := h
  have hxs := encodeBindings_returns ht hv hs hxs
  have hr := (hbody xs.scope).closed (hv.extend hxs.grows.extension) hxs.scopeIn hr
  exact forAll_meaning id id hv hxs hr hu (fun h => h) Iff.rfl Iff.rfl

theorem none_meaning : Meaning v scope (.quantified .no bs body)
    (quantify .no (encodeBindings v bs scope) enc) := by
  intro p r q hv hs h
  simp only [quantify, returns_bind, returns_liftTerm, returns_pure] at h
  obtain ⟨xs, s, hxs, t, _, hr, u, _, ⟨hu, rfl⟩, rfl, rfl⟩ := h
  have hxs := encodeBindings_returns ht hv hs hxs
  have hr := (hbody xs.scope).closed (hv.extend hxs.grows.extension) hxs.scopeIn hr
  refine forAll_meaning .not Not hv hxs hr hu (fun h => h) Iff.rfl ?_
  intro α I env
  refine Set.eq_empty_iff_forall_notMem.trans (forall_congr' fun atoms => ?_)
  constructor
  · exact fun h env' ha hb => h ⟨env', ha, hb⟩
  · rintro h ⟨env', ha, hb⟩
    exact h env' ha hb

theorem atMostOne_meaning : Meaning v scope (.quantified .lone bs body)
    (quantify .lone (encodeBindings v bs scope) enc) := by
  intro p r q hv hs h
  simp only [quantify, returns_bind, returns_liftTerm, returns_pure] at h
  obtain ⟨xs, s₁, hxs, first, s₂, hr, ys, s₃, hys, second, _, hr', u, _, ⟨hu, rfl⟩, rfl, rfl⟩ := h
  have hxs := encodeBindings_returns ht hv hs hxs
  have hr := (hbody xs.scope).closed (hv.extend hxs.grows.extension) hxs.scopeIn hr
  have h₂ := hxs.grows.trans hr.grows
  have hv₂ := hv.extend h₂.extension
  have hys := encodeBindings_returns ht hv₂ (hs.extend h₂.extension) hys
  have hr' := (hbody ys.scope).closed (hv₂.extend hys.grows.extension) hys.scopeIn hr'
  have h₂q := hys.grows.trans hr'.grows
  have hle := h₂q.extension.size_le
  have hxs₂ : ∀ x ∈ xs.vars, x.index < s₂.script.arena.size := fun x hx =>
    Nat.lt_of_lt_of_le (hxs.fresh x hx).2 hr.grows.extension.size_le
  rw [forAll_eq_ok hu, List.append_assoc]
  refine ⟨h₂.trans h₂q, fun _ => .nil (h₂.trans h₂q).extension.size_le, fun hf => ⟨?_, ?_⟩,
    fun _ _ => ⟨_, rfl⟩, ?_⟩
  · refine below_conjNontrivial (List.forall_mem_append.mpr ⟨fun t ht' => ?_,
      hys.below_guarded hr' hf⟩)
    exact (hxs.below_guarded hr (h₂q.extension.trans hf) t ht').mono hle
  · refine below_same (fun x hx => Nat.lt_of_lt_of_le (hxs₂ x hx) hle) fun y hy => ?_
    exact Nat.lt_of_lt_of_le (hys.fresh y hy).2 hr'.grows.extension.size_le
  · intro f α E ι I M env _ hf hM hmatch honto
    have hf₂ := h₂q.extension.trans hf
    have hpf := h₂.extension.trans hf₂
    have hint : InvolvesInt v.model body → Onto f M := fun hi => honto hi.quantified
    rw [holds_lone_iff, ← hxs.forall_iff (hr.grows.extension.trans hf₂) hM hmatch
      (P := fun N => first.Holds f N → ∀ vs, N.Fits f ys.vars vs →
        (∀ g ∈ ys.guards, g.Holds f (N.assign ys.vars vs)) → second.Holds f (N.assign ys.vars vs) →
          ys.vars.map (fun y => (N.assign ys.vars vs).meaning y []) =
            xs.vars.map (fun x => (N.assign ys.vars vs).meaning x [])) fun {atoms env'} ha => ?_]
    · refine (forall_pairs_iff (hxs.length.trans hys.length.symm) (hxs.below_guarded hr hf₂)
        fun y hy => (hys.fresh y hy).1).trans ?_
      simp only [List.forall_mem_append, List.forall_mem_singleton, and_imp]
    · refine imp_congr (hxs.body_truth hv hr hf₂ hM hmatch hint ha) ?_
      obtain ⟨hfit, _, _⟩ := hxs.complete (hr.grows.extension.trans hf₂) hM hmatch ha
      have hMK := M.agrees_assign (atomValues ι atoms) fun x hx => (hxs.fresh x hx).1
      exact hys.unique_iff hv₂ hr' hf (hM.agrees hv hpf hMK) (hmatch.agrees hs hMK)
        (fun hi => (hint hi).agrees hv hpf hMK) hxs₂ (M.map_meaning_assign hxs.nodup hfit.length_eq)

variable (hne : bs.flatMap Binding.names ≠ [])

include hne

theorem exists_meaning : Meaning v scope (.quantified .some bs body)
    (quantify .some (encodeBindings v bs scope) enc) := by
  intro p r q hv hs h
  simp only [quantify, returns_bind, returns_pure] at h
  obtain ⟨xs, s, hxs, holds, _, hr, rfl, rfl⟩ := h
  have hxs := encodeBindings_returns ht hv hs hxs
  have hr := hbody xs.scope _ _ _ (hv.extend hxs.grows.extension) hxs.scopeIn hr
  refine ⟨hxs.grows.trans hr.grows, fun hf => ?_, hr.below, hr.formula, ?_⟩
  · refine .cons (hxs.vars_ne_nil hne) hxs.grows.extension.size_le hxs.fresh (Term.below_conj ?_) (hr.chain hf)
    exact hxs.below (hr.grows.extension.trans hf)
  · intro f α E ι I M env _ hf hM hmatch honto
    have hiff := hxs.exists_iff (hr.grows.extension.trans hf) hM hmatch
      (P := fun N => holds.Truth f N) (Q := fun _ env' => I.Holds body env')
      fun ha => hxs.body_truth hv hr hf hM hmatch (fun hi => honto hi.quantified) ha
    refine Iff.trans ?_ hiff
    refine exists_congr fun vs => and_congr_right' ?_
    rw [Term.holds_conj]
    exact Iff.rfl

theorem unique_meaning : Meaning v scope (.quantified .one bs body)
    (quantify .one (encodeBindings v bs scope) enc) := by
  intro p r q hv hs h
  simp only [quantify, returns_bind, returns_liftTerm, returns_pure] at h
  obtain ⟨xs, s₁, hxs, holds, s₂, hr, ys, s₃, hys, again, _, hr', u, _, ⟨hu, rfl⟩, rfl, rfl⟩ := h
  have hxs := encodeBindings_returns ht hv hs hxs
  have hr := hbody xs.scope _ _ _ (hv.extend hxs.grows.extension) hxs.scopeIn hr
  have h₂ := hxs.grows.trans hr.grows
  have hv₂ := hv.extend h₂.extension
  have hys := encodeBindings_returns ht hv₂ (hs.extend h₂.extension) hys
  have hr' := (hbody ys.scope).closed (hv₂.extend hys.grows.extension) hys.scopeIn hr'
  have h₂q := hys.grows.trans hr'.grows
  have hle := h₂q.extension.size_le
  have hxs₂ : ∀ x ∈ xs.vars, x.index < s₂.script.arena.size := fun x hx =>
    Nat.lt_of_lt_of_le (hxs.fresh x hx).2 hr.grows.extension.size_le
  rw [forAll_eq_ok hu]
  refine ⟨h₂.trans h₂q, fun hf => ?_, fun hf => ?_, ?_, ?_⟩
  · have hf₂ := h₂q.extension.trans hf
    refine .cons (hxs.vars_ne_nil hne) hxs.grows.extension.size_le hxs.fresh (Term.below_conj ?_) ((hr.chain hf₂).raise hle)
    exact hxs.below (hr.grows.extension.trans hf₂)
  · have hf₂ := h₂q.extension.trans hf
    refine below_conjNontrivial (List.forall_mem_cons.mpr ⟨(hr.below hf₂).mono hle,
      List.forall_mem_singleton.mpr ⟨below_conjNontrivial ?_, below_same ?_ ?_⟩⟩)
    · exact hys.below_guarded hr' hf
    · exact fun y hy => Nat.lt_of_lt_of_le (hys.fresh y hy).2 hr'.grows.extension.size_le
    · exact fun x hx => Nat.lt_of_lt_of_le (hxs₂ x hx) hle
  · refine Term.isFormula_conj fun t ht' => ?_
    rcases List.mem_cons.mp (List.mem_filter.mp ht').1 with rfl | ht'
    · exact hr.formula
    · rw [List.mem_singleton.mp ht']
      exact fun _ _ => ⟨_, rfl⟩
  · intro f α E ι I M env _ hf hM hmatch honto
    have hf₂ := h₂q.extension.trans hf
    have hpf := h₂.extension.trans hf₂
    have hint : InvolvesInt v.model body → Onto f M := fun hi => honto hi.quantified
    rw [holds_one_iff, ← hxs.exists_iff (hr.grows.extension.trans hf₂) hM hmatch
      (P := fun N => Owes f holds.witnesses (fun K => (conjNontrivial [holds.term,
        .quantified .all ys.vars (.implies (conjNontrivial (ys.guards ++ [again]))
          (.conj (List.zipWith (fun y x => .equals (.ref y) (.ref x)) ys.vars xs.vars)))]).Holds f K)
        N) fun {atoms env'} ha => ?_]
    · refine exists_congr fun vs => and_congr_right' ?_
      rw [Term.holds_conj]
    · rw [← hxs.body_truth hv hr hf₂ hM hmatch hint ha, Encoded.Truth, ← owes_and_const]
      -- the witnesses of the first body are chosen; `K` has their values and those of `xs`
      refine owes_congr (hr.chain hf₂) fun K hK => ?_
      have hK := hK.agrees
      obtain ⟨hfit, _, _⟩ := hxs.complete (hr.grows.extension.trans hf₂) hM hmatch ha
      have hMK := (M.agrees_assign (atomValues ι atoms) fun x hx => (hxs.fresh x hx).1).trans
        (hK.mono hxs.grows.extension.size_le)
      have hvalues : xs.vars.map (fun x => K.meaning x []) = atomValues ι atoms := by
        rw [← M.map_meaning_assign hxs.nodup hfit.length_eq]
        refine List.map_congr_left fun x hx => ?_
        rw [hK.2 x (hxs.fresh x hx).2]
      rw [← hys.unique_iff hv₂ hr' hf (hM.agrees hv hpf hMK) (hmatch.agrees hs hMK)
        (fun hi => (hint hi).agrees hv hpf hMK) hxs₂ hvalues, holds_conjNontrivial,
        List.forall_mem_cons, List.forall_mem_singleton]
      refine and_congr_right' ((Term.holds_all _ _).trans (forall₂_congr fun vs _ => ?_))
      rw [Term.holds_implies, holds_conjNontrivial, List.forall_mem_append,
        List.forall_mem_singleton, holds_same (hys.length.trans hxs.length.symm), and_imp]

end Quantifiers

end TupleLogic.Encoding
