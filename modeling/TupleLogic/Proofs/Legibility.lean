import TupleLogic.Proofs.Reading

/-! Legible terms: those whose forms can be read where their declarations are
known by name. What is read need not be what was written, since a name may lead
elsewhere than to the declaration that it is the name of; but it is what the
names mean. -/

namespace TupleLogic

/-- Sorts that are there without a declaration. -/
def builtinSorts : List String := ["Int", "Bool", "Real", "String"]

namespace TermSort

mutual
/-- A sort that is read as itself where some sorts are declared. -/
def legible (declared : String → Bool) : TermSort → Bool
  | .named n => declared n && !builtinSorts.contains n
  | .set e => !e.isSet && e.legible declared
  | .tuple cs => !cs.isEmpty && legibleAll declared cs
  | .int | .bool | .real | .string => true

def legibleAll (declared : String → Bool) : List TermSort → Bool
  | [] => true
  | c :: cs => c.legible declared && legibleAll declared cs
end

theorem legibleAll_iff {declared : String → Bool} {cs : List TermSort} :
    legibleAll declared cs = true ↔ ∀ c ∈ cs, c.legible declared = true := by
  induction cs with
  | nil => simp [legibleAll]
  | cons c cs ih => rw [legibleAll, Bool.and_eq_true, ih, List.forall_mem_cons]

theorem mkTuple_eq_ok {cs : List TermSort} {sort : TermSort} :
    mkTuple cs = .ok sort ↔ cs ≠ [] ∧ sort = .tuple cs := by
  cases cs <;> simp [mkTuple, eq_comm]

theorem mkSet_eq_ok {e sort : TermSort} :
    mkSet e = .ok sort ↔ e.isSet = false ∧ sort = .set e := by
  cases h : e.isSet <;> simp [mkSet, h, eq_comm]

end TermSort

/-- Heads that are operators wherever they are applied. A selection is none,
since its head is a form of its own. -/
def isOperator (head : String) : Bool :=
  (UnaryOp.ofSpelling? head).isSome || (BinaryOp.ofSpelling? head).any (· ≠ .select) ||
    (NaryOp.ofSpelling? head).isSome

namespace Script

def declaresSort (s : Script) (name : String) : Bool := (s.sortDeclaration? name).isSome

/-- What can be read next to the declarations before `limit`. -/
def legible (s : Script) (limit : Nat) : Usage where
  name _ := true
  sort := TermSort.legible s.declaresSort
  binder id :=
    match s.arena[id.index]? with
    | some (.variable _ sort) => sort.legible s.declaresSort
    | _ => false
  ref bound id := isLiteral (s.nameOf id) || bound.any (fun b => s.nameOf b = s.nameOf id) ||
    (s.lookup (s.nameOf id)).any (s.precedes limit)
  call f args := applied f (args.map Term.shape) && !isOperator f &&
    (s.lookup f).any (s.precedes limit)

namespace Reader

/-! ## Sorts -/

section Sorts

variable {r : Script} {declared : String → Bool}

theorem readSort_tuple (args : List SExpr) : readSort r (.list (.symbol "Tuple" :: args)) =
    readSorts r args >>= fun cs => check (TermSort.mkTuple cs) := by
  match args with
  | [] | [_] | _ :: _ :: _ =>
    rw [readSort]
    · rfl
    try nofun

mutual
theorem readSort_form (hr : ∀ {n}, declared n = true → r.declaresSort n = true) :
    ∀ {sort : TermSort}, sort.legible declared = true → readSort r sort.form = .ok sort
  | .named n, h => by
    simp only [TermSort.legible, Bool.and_eq_true, builtinSorts] at h
    obtain ⟨hdeclared, hbuiltin⟩ := h
    simp only [Bool.not_eq_true', List.contains_eq_mem, List.mem_cons, decide_eq_false_iff_not,
      not_or] at hbuiltin
    obtain ⟨hInt, hBool, hReal, hString, _⟩ := hbuiltin
    obtain ⟨d, hd⟩ := Option.isSome_iff_exists.mp (hr hdeclared)
    rw [TermSort.form, readSort, if_neg hInt, if_neg hBool, if_neg hReal, if_neg hString, hd]
  | .set e, h => by
    simp only [TermSort.legible, Bool.and_eq_true, Bool.not_eq_true'] at h
    rw [TermSort.form, readSort, if_pos rfl, readSort_form hr h.2]
    exact check_eq_ok.mpr (TermSort.mkSet_eq_ok.mpr ⟨h.1, rfl⟩)
  | .tuple cs, h => by
    simp only [TermSort.legible, Bool.and_eq_true, Bool.not_eq_true', List.isEmpty_eq_false_iff] at h
    rw [TermSort.form, readSort_tuple, readSorts_forms hr h.2]
    exact check_eq_ok.mpr (TermSort.mkTuple_eq_ok.mpr ⟨h.1, rfl⟩)
  | .int, _ | .bool, _ | .real, _ | .string, _ => by
    rw [TermSort.form, readSort]
    rfl

theorem readSorts_forms (hr : ∀ {n}, declared n = true → r.declaresSort n = true) :
    ∀ {sorts : List TermSort}, TermSort.legibleAll declared sorts = true →
      readSorts r (TermSort.forms sorts) = .ok sorts
  | [], _ => rfl
  | c :: cs, h => by
    rw [TermSort.legibleAll, Bool.and_eq_true] at h
    rw [TermSort.forms, readSorts, readSort_form hr h.1, readSorts_forms hr h.2]
    rfl
end

mutual
/-- A sort is read from its own form only, and only if it is legible. -/
theorem legible_of_readSort : ∀ {e : SExpr} {sort : TermSort}, readSort r e = .ok sort →
    sort.legible r.declaresSort = true ∧ e = sort.form
  | e, sort, h => by
    unfold readSort at h
    split at h
    · -- a name: of a builtin sort, or else of a declared one
      rename_i name
      split_ifs at h with hInt hBool hReal hString
      · cases h; exact ⟨rfl, by rw [hInt, TermSort.form]⟩
      · cases h; exact ⟨rfl, by rw [hBool, TermSort.form]⟩
      · cases h; exact ⟨rfl, by rw [hReal, TermSort.form]⟩
      · cases h; exact ⟨rfl, by rw [hString, TermSort.form]⟩
      split at h
      · rename_i d hd
        cases h
        refine ⟨?_, by rw [TermSort.form]⟩
        simp [TermSort.legible, declaresSort, hd, builtinSorts, hInt, hBool, hReal, hString]
      · cases h
    · -- a set or a tuple
      split_ifs at h with hset htuple
      · split at h
        · obtain ⟨e, he, h⟩ := bind_eq_ok.mp h
          obtain ⟨hflat, rfl⟩ := TermSort.mkSet_eq_ok.mp (check_eq_ok.mp h)
          obtain ⟨hlegible, rfl⟩ := legible_of_readSort he
          exact ⟨by rw [TermSort.legible, hflat, hlegible]; rfl, by rw [hset, TermSort.form]⟩
        · cases h
      · obtain ⟨cs, hcs, h⟩ := bind_eq_ok.mp h
        obtain ⟨hne, rfl⟩ := TermSort.mkTuple_eq_ok.mp (check_eq_ok.mp h)
        obtain ⟨hlegible, rfl⟩ := legible_of_readSorts hcs
        refine ⟨?_, by rw [htuple, TermSort.form]⟩
        rw [TermSort.legible, hlegible, Bool.and_true]
        simpa using hne
    · cases h
termination_by e => sizeOf e

theorem legible_of_readSorts : ∀ {es : List SExpr} {sorts : List TermSort},
    readSorts r es = .ok sorts →
      TermSort.legibleAll r.declaresSort sorts = true ∧ es = TermSort.forms sorts
  | [], sorts, h => by
    cases h
    exact ⟨rfl, rfl⟩
  | e :: es, sorts, h => by
    rw [readSorts] at h
    obtain ⟨sort, hsort, h⟩ := bind_eq_ok.mp h
    obtain ⟨sorts, hsorts, h⟩ := bind_eq_ok.mp h
    obtain rfl := pure_eq_ok.mp h
    obtain ⟨hlegible, rfl⟩ := legible_of_readSort hsort
    obtain ⟨hlegibles, rfl⟩ := legible_of_readSorts hsorts
    exact ⟨by rw [TermSort.legibleAll, hlegible, hlegibles]; rfl, rfl⟩
termination_by es => sizeOf es
end

end Sorts

/-! ## Terms -/

/-- The reader has what a term may need: the sorts, and the names of the
declarations before `limit`. -/
structure Knows (s : Script) (limit : Nat) (r : Script) : Prop where
  sorts : ∀ {n}, s.declaresSort n = true → r.declaresSort n = true
  names : ∀ {n id}, s.lookup n = some id → s.precedes limit id = true → (r.lookup n).isSome = true

theorem Knows.addsVariables {s r r' : Script} {limit : Nat} (h : Knows s limit r)
    (hadds : r.AddsVariables r') : Knows s limit r' := by
  refine ⟨fun hn => ?_, fun hl hp => ?_⟩
  · rw [hadds.same]
    exact h.sorts hn
  · rw [Script.lookup, hadds.index]
    exact h.names hl hp

theorem byName_mono {s r r' : Script} (h : r.Extends r') (u : Usage) :
    (byName s r).Implies (byName s r') u fun _ => True where
  binder := fun ⟨name, sort, hi, hj⟩ => ⟨name, sort, hi, h.decl hj⟩
  ref := by
    intro ρ i t _ _ ht
    change r.denote (s.scope ρ) (s.nameOf i) = some t at ht
    change r'.denote (s.scope ρ) (s.nameOf i) = some t
    unfold denote at ht ⊢
    split
    · rename_i hname
      rwa [if_pos hname] at ht
    split
    · rename_i hname hname'
      rwa [if_neg hname, if_pos hname'] at ht
    · rename_i hname hname'
      rw [if_neg hname, if_neg hname'] at ht
      split at ht
      · exact ht
      · obtain ⟨id, hid, rfl⟩ := Option.map_eq_some_iff.mp ht
        rw [h.lookup hid]
        rfl
  closed := trivial
  bind _ _ := trivial

section Terms

variable {s r : Script} {limit : Nat}

theorem reads_binding {id : DeclId} (hk : Knows s limit r)
    (h : (s.legible limit).binder id = true) :
    ∃ id' r', Reads (readBinding (s.bindingForm id)) r (s.nameOf id, id') r' ∧
      r.AddsVariables r' ∧ (byName s r').binder id id' := by
  simp only [legible] at h
  split at h
  · rename_i name sort hd
    refine ⟨r.nextId, (r.addVariable name sort).2, ?_, addsVariables_addVariable r name sort,
      name, sort, hd, addVariable_getElem? r name sort⟩
    simp only [Reads, bindingForm, hd, Declaration.name, Declaration.sort, readBinding,
      readSort_form hk.sorts h, nameOf]
    rfl
  · cases h

theorem reads_bindings {vars : List DeclId} (hk : Knows s limit r)
    (h : ∀ id ∈ vars, (s.legible limit).binder id = true) :
    ∃ vars' r', Reads ((vars.map s.bindingForm).mapM readBinding) r
        ((vars.zip vars').map fun p => (s.nameOf p.1, p.2)) r' ∧
      r.AddsVariables r' ∧ List.Forall₂ (byName s r').binder vars vars' := by
  induction vars generalizing r with
  | nil => exact ⟨[], r, reads_pure.mpr ⟨rfl, rfl⟩, .refl r, .nil⟩
  | cons id vars ih =>
    rw [List.forall_mem_cons] at h
    obtain ⟨id', r₁, hid, hadds, hbinder⟩ := reads_binding hk h.1
    obtain ⟨vars', r', hvars, hadds', hbinders⟩ := ih (hk.addsVariables hadds) h.2
    refine ⟨id' :: vars', r', ?_, hadds.trans hadds', ?_⟩
    · rw [List.map_cons, List.mapM_cons]
      exact reads_bind.mpr ⟨_, r₁, hid, reads_bind.mpr ⟨_, r', hvars, reads_pure.mpr ⟨rfl, rfl⟩⟩⟩
    · exact .cons ((byName_mono hadds'.extension s.faithful).binder hbinder) hbinders

theorem scope_bind (ρ : Pairing) (vars vars' : List DeclId) :
    s.scope (ρ.bind vars vars') =
      ((vars.zip vars').map fun p => (s.nameOf p.1, p.2)).reverse ++ s.scope ρ := by
  rw [scope, Pairing.bind, List.map_append, List.map_reverse]
  rfl

theorem map_snd_bound {vars vars' : List DeclId} (h : vars.length = vars'.length) :
    ((vars.zip vars').map fun p => (s.nameOf p.1, p.2)).map Prod.snd = vars' := by
  rw [List.map_map]
  exact List.map_snd_zip h.ge

theorem binders_variables {vars vars' : List DeclId}
    (h : List.Forall₂ (byName s r).binder vars vars') : ∀ p ∈ vars', p ∈ r.entries .variable := by
  induction h with
  | nil => nofun
  | cons hij _ ih =>
    obtain ⟨name, sort, _, hj⟩ := hij
    exact List.forall_mem_cons.mpr ⟨variable_mem_entries.mpr ⟨name, sort, hj⟩, ih⟩

/-- A name that means something is read as what it means. -/
theorem reads_symbol {scope : Scope} {name : String} {t : Term}
    (h : r.denote scope name = some t) : Reads (readSymbol scope name) r t r := by
  unfold denote at h
  unfold readSymbol
  split at h
  · rename_i hname
    rw [if_pos hname]
    exact reads_pure.mpr ⟨(Option.some.inj h).symm, rfl⟩
  rename_i htrue
  rw [if_neg htrue]
  split at h
  · rename_i hname
    rw [if_pos hname]
    exact reads_pure.mpr ⟨(Option.some.inj h).symm, rfl⟩
  rename_i hfalse
  rw [if_neg hfalse]
  split at h
  · rename_i id hid
    rw [hid]
    exact reads_pure.mpr ⟨(Option.some.inj h).symm, rfl⟩
  · rename_i hscope
    obtain ⟨id, hid, rfl⟩ := Option.map_eq_some_iff.mp h
    rw [hscope]
    refine reads_bind.mpr ⟨r, r, reads_get.mpr ⟨rfl, rfl⟩, ?_⟩
    rw [hid]
    exact reads_pure.mpr ⟨rfl, rfl⟩

theorem exists_denote {ρ : Pairing} {id : DeclId} (hk : Knows s limit r)
    (h : (s.legible limit).ref (ρ.map Prod.fst) id = true) :
    ∃ u, r.denote (s.scope ρ) (s.nameOf id) = some u := by
  by_cases hliteral : isLiteral (s.nameOf id) = true
  · simp only [isLiteral, Bool.or_eq_true, decide_eq_true_eq] at hliteral
    unfold denote
    rcases hliteral with hname | hname <;> simp [hname]
  · rw [Bool.not_eq_true] at hliteral
    rw [denote_eq hliteral]
    simp only [legible, hliteral, Bool.false_or, Bool.or_eq_true, List.any_map, List.any_eq_true,
      Function.comp_apply, Option.any_eq_true] at h
    have hsome : ((s.scope ρ).lookup (s.nameOf id)).isSome = true ∨
        (r.lookup (s.nameOf id)).isSome = true := by
      rcases h with ⟨p, hp, hname⟩ | ⟨i, hi, hprecedes⟩
      · left
        rw [lookup_scope, Option.isSome_map, List.find?_isSome]
        exact ⟨p, hp, hname⟩
      · exact .inr (hk.names hi hprecedes)
    rw [← Option.isSome_iff_exists, Option.isSome_map, Option.isSome_or, Bool.or_eq_true]
    exact hsome

theorem applied_operator {head : String} {shapes : List Shape} (hne : shapes ≠ [])
    (hminus : head ≠ "-") (has : head ≠ "as") (hite : head ≠ "ite")
    (hquantifier : Quantifier.ofSpelling? head = none) : applied head shapes = true := by
  unfold applied
  split <;> simp_all

theorem applied_unary (op : UnaryOp) {shapes : List Shape} (hne : shapes ≠ []) :
    applied op.spelling shapes = true := by
  cases op <;> exact applied_operator hne (by decide) (by decide) (by decide) (by decide)

theorem applied_binary (op : BinaryOp) {shapes : List Shape} (hne : shapes ≠ []) :
    applied op.spelling shapes = true := by
  cases op <;> exact applied_operator hne (by decide) (by decide) (by decide) (by decide)

theorem applied_nary (op : NaryOp) {shapes : List Shape} (hne : shapes ≠ []) :
    applied op.spelling shapes = true := by
  cases op <;> exact applied_operator hne (by decide) (by decide) (by decide) (by decide)

theorem applies_unary (r : Script) (op : UnaryOp) (a : Term) :
    Applies r op.spelling [a] (.unary op a) := by
  rw [Applies, UnaryOp.ofSpelling?_spelling]
  exact ⟨a, rfl, rfl⟩

theorem applies_binary (r : Script) {op : BinaryOp} (hop : op ≠ .select) (a b : Term) :
    Applies r op.spelling [a, b] (.binary op a b) := by
  cases op <;> first | exact ⟨a, b, rfl, rfl⟩ | exact absurd rfl hop

theorem applies_nary (r : Script) {op : NaryOp} {ts : List Term} (h : op.fewest ≤ ts.length) :
    Applies r op.spelling ts (.nary op ts) := by
  cases op <;> exact ⟨h, rfl⟩

theorem applies_call {f : String} {ts : List Term} (hf : isOperator f = false)
    (h : (r.lookup f).isSome = true) : Applies r f ts (.call f ts) := by
  simp only [isOperator, Bool.or_eq_false_iff, Option.isSome_eq_false_iff, Option.isNone_iff_eq_none]
    at hf
  obtain ⟨⟨hunary, hbinary⟩, hnary⟩ := hf
  rw [Applies, hunary, hnary]
  cases hop : BinaryOp.ofSpelling? f with
  | none => exact ⟨h, rfl⟩
  | some op =>
    rw [hop] at hbinary
    obtain rfl : op = .select := by simpa using hbinary
    exact ⟨h, rfl⟩

theorem reads_setLiteral {sort : SExpr} {sort' : TermSort} (h : readSort r sort = .ok sort')
    (hset : sort'.isSet = true) :
    Reads (readAnnotated "emptyset" sort) r (.emptySet sort') r ∧
      Reads (readAnnotated "univset" sort) r (.fullSet sort') r := by
  have hsort : Reads (liftM (readSort r sort) : Reader TermSort) r sort' r :=
    reads_lift.mpr ⟨h, rfl⟩
  constructor
  · refine reads_bind.mpr ⟨r, r, reads_get.mpr ⟨rfl, rfl⟩, reads_bind.mpr ⟨sort', r, hsort, ?_⟩⟩
    rw [if_pos rfl]
    exact reads_ite.mpr ⟨hset, reads_pure.mpr ⟨rfl, rfl⟩⟩
  · refine reads_bind.mpr ⟨r, r, reads_get.mpr ⟨rfl, rfl⟩, reads_bind.mpr ⟨sort', r, hsort, ?_⟩⟩
    rw [if_neg (by decide), if_pos rfl]
    exact reads_ite.mpr ⟨hset, reads_pure.mpr ⟨rfl, rfl⟩⟩

theorem exists_of_isColumn {t : Term} (h : t.isColumn = true) :
    ∃ n : Nat, t = .int n ∧ Text.fitsUnsigned32 n = true := by
  unfold Term.isColumn at h
  split at h
  · rename_i n
    simp only [Bool.and_eq_true, decide_eq_true_eq] at h
    exact ⟨n.natAbs, by rw [Int.natAbs_of_nonneg h.1], h.2⟩
  · cases h

mutual
theorem reads_form : ∀ {t : Term} {ρ : Pairing} {r : Script}, Knows s limit r →
    t.conforms (s.legible limit) (ρ.map Prod.fst) = true →
      ∃ u r', Reads (readTerm (s.scope ρ) (s.form t)) r u r' ∧ r.AddsVariables r' ∧
        t.Corresponds (byName s r') ρ u
  | .ref id, ρ, r, hk, h => by
    rw [Term.conforms] at h
    obtain ⟨u, hu⟩ := exists_denote hk h
    rw [form, readTerm]
    exact ⟨u, r, reads_symbol hu, .refl r, by rw [Term.Corresponds]; exact hu⟩
  | .int n, ρ, r, hk, h => by
    rw [Term.conforms] at h
    refine ⟨.int n, r, ?_, .refl r, by rw [Term.Corresponds]⟩
    rw [form, intForm]
    -- a negative number is written as the application of `-`
    by_cases hn : n < 0
    · have habs : -(n.natAbs : Int) = n := by omega
      rw [if_pos hn, readTerm, readForm_negative, habs]
      exact reads_readInt.mpr ⟨h, rfl, rfl⟩
    · have habs : (n.natAbs : Int) = n := by omega
      rw [if_neg hn, readTerm, habs]
      exact reads_readInt.mpr ⟨h, rfl, rfl⟩
  | .bool b, ρ, r, hk, h => by
    refine ⟨.bool b, r, ?_, .refl r, by rw [Term.Corresponds]⟩
    rw [form, readTerm]
    cases b <;> exact reads_symbol rfl
  | .emptySet sort, ρ, r, hk, h => by
    rw [Term.conforms, Bool.and_eq_true] at h
    refine ⟨.emptySet sort, r, ?_, .refl r, by rw [Term.Corresponds]⟩
    rw [form, setLiteralForm, readTerm, readForm_annotated]
    exact (reads_setLiteral (readSort_form hk.sorts h.2) h.1).1
  | .fullSet sort, ρ, r, hk, h => by
    rw [Term.conforms, Bool.and_eq_true] at h
    refine ⟨.fullSet sort, r, ?_, .refl r, by rw [Term.Corresponds]⟩
    rw [form, setLiteralForm, readTerm, readForm_annotated]
    exact (reads_setLiteral (readSort_form hk.sorts h.2) h.1).2
  | .unary op a, ρ, r, hk, h => by
    rw [Term.conforms] at h
    obtain ⟨a', r', ha, hadds, hcorr⟩ := reads_form hk h
    refine ⟨.unary op a', r', ?_, hadds, by rw [Term.Corresponds]; exact ⟨a', rfl, hcorr⟩⟩
    rw [form, readTerm]
    exact (reads_applied (applied_unary op (by simp))).mpr
      ⟨[a'], reads_terms_cons ha reads_terms_nil, applies_unary r op a'⟩
  | .binary op a b, ρ, r, hk, h => by
    rw [Term.conforms, Bool.and_eq_true] at h
    rw [form]
    -- a selection has its column in its head, so only its second operand is read
    by_cases hop : op = .select
    · rw [if_pos hop] at h ⊢
      obtain ⟨b', r', hb, hadds, hcorr⟩ := reads_form hk h.2
      obtain ⟨n, rfl, hfits⟩ := exists_of_isColumn h.1
      refine ⟨.select n b', r', ?_, hadds, ?_⟩
      · rw [selectorForm, readTerm]
        exact reads_selection.mpr ⟨hfits, b', hb, rfl⟩
      · subst hop
        rw [Term.Corresponds]
        exact ⟨.int n, b', rfl, by rw [Term.Corresponds], hcorr⟩
    · rw [if_neg hop] at h ⊢
      obtain ⟨a', r₁, ha, hadds, hcorr⟩ := reads_form hk h.1
      obtain ⟨b', r', hb, hadds', hcorr'⟩ := reads_form (hk.addsVariables hadds) h.2
      refine ⟨.binary op a' b', r', ?_, hadds.trans hadds', ?_⟩
      · rw [readTerm]
        exact (reads_applied (applied_binary op (by simp))).mpr ⟨[a', b'],
          reads_terms_cons ha (reads_terms_cons hb reads_terms_nil), applies_binary r hop a' b'⟩
      · rw [Term.Corresponds]
        exact ⟨a', b', rfl, hcorr.mono (byName_mono hadds'.extension _) trivial h.1, hcorr'⟩
  | .nary op args, ρ, r, hk, h => by
    rw [Term.conforms, Bool.and_eq_true, decide_eq_true_eq] at h
    obtain ⟨args', r', hargs, hadds, hcorr⟩ := reads_forms hk h.2
    refine ⟨.nary op args', r', ?_, hadds, by rw [Term.Corresponds]; exact ⟨args', rfl, hcorr⟩⟩
    have hlength : args'.length = args.length := by rw [length_readTerms hargs, length_forms]
    have hne : (s.forms args).map SExpr.shape ≠ [] := by
      rw [map_shape_forms, ne_eq, List.map_eq_nil_iff, ← List.length_eq_zero_iff]
      cases op <;> simp [NaryOp.fewest] at h <;> omega
    rw [form, readTerm]
    exact (reads_applied (applied_nary op hne)).mpr
      ⟨args', hargs, applies_nary r (by rw [hlength]; exact h.1)⟩
  | .quantified q vars body, ρ, r, hk, h => by
    simp only [Term.conforms, Bool.and_eq_true, Bool.not_eq_true', List.isEmpty_eq_false_iff,
      List.all_eq_true] at h
    obtain ⟨⟨hne, hvars⟩, hbody⟩ := h
    obtain ⟨vars', r₁, hbound, hadds, hbinders⟩ := reads_bindings hk hvars
    rw [← Pairing.map_fst_bind hbinders] at hbody
    obtain ⟨body', r', hread, hadds', hcorr⟩ := reads_form (hk.addsVariables hadds) hbody
    rw [scope_bind] at hread
    have hlength := hbinders.length_eq
    refine ⟨.quantified q vars' body', r', ?_, hadds.trans hadds', ?_⟩
    · rw [form, readTerm]
      refine reads_quantify.mpr ⟨_, r₁, body', hbound, hread, ?_, ?_⟩
      · rw [ne_eq, List.map_eq_nil_iff, List.zip_eq_nil_iff, not_or]
        exact ⟨hne, fun h => hne (by simpa [h] using hlength)⟩
      · rw [map_snd_bound hlength]
    · rw [Term.Corresponds]
      have hmono := byName_mono (s := s) hadds'.extension (s.legible limit)
      exact ⟨vars', body', rfl, hbinders.imp fun _ _ => hmono.binder, hcorr⟩
  | .ite c a b, ρ, r, hk, h => by
    simp only [Term.conforms, Bool.and_eq_true] at h
    obtain ⟨c', r₁, hc, hadds₁, hcorr₁⟩ := reads_form hk h.1.1
    obtain ⟨a', r₂, ha, hadds₂, hcorr₂⟩ := reads_form (hk.addsVariables hadds₁) h.1.2
    obtain ⟨b', r', hb, hadds₃, hcorr₃⟩ :=
      reads_form ((hk.addsVariables hadds₁).addsVariables hadds₂) h.2
    refine ⟨.ite c' a' b', r', ?_, (hadds₁.trans hadds₂).trans hadds₃, ?_⟩
    · rw [form, readTerm]
      exact reads_conditional.mpr ⟨c', a', b', r₁, r₂, hc, ha, hb, rfl⟩
    -- what was read first is found again in the script that the later parts leave
    · rw [Term.Corresponds]
      refine ⟨c', a', b', rfl, ?_, ?_, hcorr₃⟩
      · exact hcorr₁.mono (byName_mono (hadds₂.trans hadds₃).extension _) trivial h.1.1
      · exact hcorr₂.mono (byName_mono hadds₃.extension _) trivial h.1.2
  | .call f args, ρ, r, hk, h => by
    simp only [Term.conforms, Bool.and_eq_true, Bool.not_eq_true'] at h
    obtain ⟨⟨hcall, hne⟩, hargs⟩ := h
    simp only [legible, Bool.and_eq_true, Bool.not_eq_true', Option.any_eq_true] at hcall
    obtain ⟨⟨happlied, hoperator⟩, id, hid, hprecedes⟩ := hcall
    obtain ⟨args', r', hread, hadds, hcorr⟩ := reads_forms hk hargs
    refine ⟨.call f args', r', ?_, hadds, by rw [Term.Corresponds]; exact ⟨args', rfl, hcorr⟩⟩
    rw [form, if_neg (by rw [hne]; nofun), readTerm]
    rw [← map_shape_forms s] at happlied
    exact (reads_applied happlied).mpr
      ⟨args', hread, applies_call hoperator (hk.names hid hprecedes)⟩

theorem reads_forms : ∀ {ts : List Term} {ρ : Pairing} {r : Script}, Knows s limit r →
    Term.conformsAll (s.legible limit) (ρ.map Prod.fst) ts = true →
      ∃ us r', Reads (readTerms (s.scope ρ) (s.forms ts)) r us r' ∧ r.AddsVariables r' ∧
        Term.CorrespondsAll (byName s r') ρ ts us
  | [], ρ, r, hk, h =>
    ⟨[], r, reads_pure.mpr ⟨rfl, rfl⟩, .refl r, by rw [Term.CorrespondsAll]⟩
  | t :: ts, ρ, r, hk, h => by
    rw [Term.conformsAll, Bool.and_eq_true] at h
    obtain ⟨u, r₁, hu, hadds, hcorr⟩ := reads_form hk h.1
    obtain ⟨us, r', hus, hadds', hcorrs⟩ := reads_forms (hk.addsVariables hadds) h.2
    refine ⟨u :: us, r', ?_, hadds.trans hadds', ?_⟩
    · rw [forms, readTerms]
      exact reads_bind.mpr ⟨u, r₁, hu, reads_bind.mpr ⟨us, r', hus, reads_pure.mpr ⟨rfl, rfl⟩⟩⟩
    · rw [Term.CorrespondsAll]
      exact ⟨u, us, rfl, hcorr.mono (byName_mono hadds'.extension _) trivial h.1, hcorrs⟩
end

end Terms

end Reader

end Script

end TupleLogic
