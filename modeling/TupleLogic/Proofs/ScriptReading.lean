import TupleLogic.Proofs.Legibility
import TupleLogic.Proofs.SortCounts
import TupleLogic.Proofs.TextStructure

/-! Reading the forms of a legible script. The reader goes through the commands
in order; what it has made so far mirrors the declarations and assertions that
lie behind it, and knows their names and no others. At the end it has a script
that means by name what the first one says. -/

namespace TupleLogic.Script

/-! ## The order of declarations -/

variable {s : Script}

def hasKind (s : Script) (k : Declaration.Kind) (id : DeclId) : Bool :=
  (s.arena[id.index]?).map Declaration.kind = some k

theorem hasKind_iff {k : Declaration.Kind} {id : DeclId} {d : Declaration}
    (hd : s.arena[id.index]? = some d) : s.hasKind k id = true ↔ d.kind = k := by
  simp [hasKind, hd]

theorem hasKind_of_mem_entries {k : Declaration.Kind} {id : DeclId} (h : id ∈ s.entries k)
    (k' : Declaration.Kind) : s.hasKind k' id = decide (k = k') := by
  obtain ⟨d, hd, rfl⟩ := mem_entries.mp h
  simp [hasKind, hd]

theorem entries_sorted (s : Script) (k : Declaration.Kind) :
    (s.entries k).Pairwise fun i j => i.index < j.index := by
  refine List.Pairwise.filter _ (List.pairwise_map.mpr ?_)
  exact List.pairwise_lt_range

theorem topLevel_eq (hc : s.Coherent) :
    s.topLevel = s.entries .function ++ s.entries .constant ++ s.entries .definition := by
  rw [topLevel, hc.functions, hc.constants, hc.definitions]

theorem filter_entries (s : Script) (k k' : Declaration.Kind) :
    (s.entries k).filter (s.hasKind k') = if k = k' then s.entries k else [] := by
  by_cases hk : k = k'
  · rw [if_pos hk, List.filter_eq_self]
    intro id hid
    rw [hasKind_of_mem_entries hid, decide_eq_true hk]
  · rw [if_neg hk, List.filter_eq_nil_iff]
    intro id hid
    rw [hasKind_of_mem_entries hid, decide_eq_false hk]
    exact Bool.false_ne_true

theorem filter_topLevel (hc : s.Coherent) : s.topLevel.filter (s.hasKind .function) = s.functions ∧
    s.topLevel.filter (s.hasKind .constant) = s.constants ∧
    s.topLevel.filter (s.hasKind .definition) = s.definitions := by
  rw [topLevel_eq hc, hc.functions, hc.constants, hc.definitions]
  simp [List.filter_append, filter_entries]

theorem nodup_topLevel (hc : s.Coherent) : s.topLevel.Nodup := by
  have hdisjoint : ∀ {k k'}, k ≠ k' → List.Disjoint (s.entries k) (s.entries k') := by
    intro k k' hne id hid hid'
    have h := hasKind_of_mem_entries hid k'
    rw [hasKind_of_mem_entries hid' k', decide_eq_true rfl, decide_eq_false hne] at h
    cases h
  rw [topLevel_eq hc, List.nodup_append', List.nodup_append', List.disjoint_append_left]
  exact ⟨⟨nodup_entries s _, nodup_entries s _, hdisjoint (by decide)⟩, nodup_entries s _,
    hdisjoint (by decide), hdisjoint (by decide)⟩

/-- A declaration that stands later is not of an earlier kind. -/
theorem topLevel_ranked (hc : s.Coherent) : s.topLevel.Pairwise fun i j =>
    ∀ k k', s.hasKind k i = true → s.hasKind k' j = true → k.rank ≤ k'.rank := by
  have hranks : ∀ {k k' : Declaration.Kind}, k.rank ≤ k'.rank →
      ∀ i ∈ s.entries k, ∀ j ∈ s.entries k', ∀ l l', s.hasKind l i = true →
        s.hasKind l' j = true → l.rank ≤ l'.rank := by
    intro k k' hk i hi j hj l l' hl hl'
    rw [hasKind_of_mem_entries hi, decide_eq_true_eq] at hl
    rw [hasKind_of_mem_entries hj, decide_eq_true_eq] at hl'
    rw [← hl, ← hl']
    exact hk
  rw [topLevel_eq hc, List.pairwise_append, List.pairwise_append]
  refine ⟨⟨?_, ?_, hranks (by decide)⟩, ?_, fun i hi => ?_⟩
  · exact List.pairwise_of_forall_mem_list (hranks (Nat.le_refl _))
  · exact List.pairwise_of_forall_mem_list (hranks (Nat.le_refl _))
  · exact List.pairwise_of_forall_mem_list (hranks (Nat.le_refl _))
  · rcases List.mem_append.mp hi with hi | hi
    · exact hranks (by decide) i hi
    · exact hranks (by decide) i hi

/-- Nothing after a definition precedes it. -/
theorem pairwise_topLevel (hc : s.Coherent) : s.topLevel.Pairwise fun a b =>
    s.hasKind .definition a = true → s.precedes a.index b = false := by
  have hother : ∀ {k}, k ≠ .definition → ∀ a ∈ s.entries k, ∀ b,
      s.hasKind .definition a = true → s.precedes a.index b = false := by
    intro k hk a ha b hd
    rw [hasKind_of_mem_entries ha, decide_eq_false hk] at hd
    exact absurd hd Bool.false_ne_true
  rw [topLevel_eq hc, List.pairwise_append, List.pairwise_append]
  refine ⟨⟨?_, ?_, ?_⟩, ?_, ?_⟩
  · exact List.pairwise_of_forall_mem_list fun a ha b _ => hother (by decide) a ha b
  · exact List.pairwise_of_forall_mem_list fun a ha b _ => hother (by decide) a ha b
  · exact fun a ha b _ => hother (by decide) a ha b
  -- only definitions are left, and they stand in the order in which they were made
  · refine List.Pairwise.imp_of_mem (fun {a b} ha hb hlt _ => ?_) (entries_sorted s _)
    obtain ⟨d, hd, hkind⟩ := mem_entries.mp hb
    cases d with
    | definition =>
      rw [precedes, hd]
      exact decide_eq_false (by omega)
    | _ => cases hkind
  · intro a ha b _
    rcases List.mem_append.mp ha with ha | ha
    · exact hother (by decide) a ha b
    · exact hother (by decide) a ha b

/-- What precedes a definition stands before it. -/
theorem mem_before_definition (hc : s.Coherent) {before after : List DeclId} {id i : DeclId}
    (h : s.topLevel = before ++ id :: after) (hk : s.hasKind .definition id = true)
    (hi : i ∈ s.topLevel) (hp : s.precedes id.index i = true) : i ∈ before := by
  have hsorted := pairwise_topLevel hc
  rw [h, List.mem_append, List.mem_cons] at hi
  rw [h, List.pairwise_append, List.pairwise_cons] at hsorted
  obtain ⟨_, ⟨hafter, _⟩, _⟩ := hsorted
  rcases hi with hi | rfl | hi
  · exact hi
  · -- nothing precedes itself
    obtain ⟨d, hd⟩ : ∃ d, s.arena[i.index]? = some d := by
      cases hd : s.arena[i.index]? with
      | none => simp [hasKind, hd] at hk
      | some d => exact ⟨d, rfl⟩
    rw [hasKind_iff hd] at hk
    cases d with
    | definition => simp [precedes, hd] at hp
    | _ => cases hk
  · rw [hafter i hi hk] at hp
    cases hp

/-! ## Names of assertions -/

/-- The comment that a name becomes. -/
def heard (name : String) : Atom := Token.commentAtom (Text.trim (' ' :: name.toList))

/-- The name that is read where a name was written. -/
def readName (name : String) : Option String :=
  match heard name with
  | .comment text => some text
  | _ => none

/-- The cardinality that a name reports. -/
def report? (name : String) : Option (String × Nat) :=
  match heard name with
  | .cardinality sort count => some (sort, count)
  | _ => none

/-- The reports in the names of assertions, the latest first. -/
def reports (as : List Assertion) : List (String × Nat) :=
  (as.filterMap fun a => a.name.bind report?).reverse

theorem reports_concat (as : List Assertion) (a : Assertion) :
    reports (as ++ [a]) = (a.name.bind report?).toList ++ reports as := by
  rw [reports, List.filterMap_append, List.reverse_append]
  cases h : a.name.bind report? <;> simp [h, reports]

/-! ## What the reader has made -/

namespace Reader

/-- The declarations of `s` that are `done`, and the assertions, as the reader
has them in `r`. -/
structure Mirrors (s : Script) (done : List DeclId) (asserted : List Assertion) (r : Script) :
    Prop where
  coherent : r.Coherent
  sorts : r.sorts = s.sorts.map fun d => ⟨d.name, d.arity, none⟩
  functions : List.Forall₂ (Agree (byName s r) s r) (done.filter (s.hasKind .function)) r.functions
  constants : List.Forall₂ (Agree (byName s r) s r) (done.filter (s.hasKind .constant)) r.constants
  definitions : List.Forall₂ (Agree (byName s r) s r) (done.filter (s.hasKind .definition))
    r.definitions
  names : ∀ name, (r.lookup name).isSome = true ↔ ∃ id ∈ done, s.nameOf id = name
  order : r.topLevel.Pairwise fun i j => i.index < j.index
  assertions : List.Forall₂ (fun a b => b.name = a.name.bind readName ∧
    a.formula.Corresponds (byName s r) [] b.formula) asserted r.assertions

section Mirrors

variable {r r₁ r' : Script} {done : List DeclId} {asserted : List Assertion}

theorem Mirrors.declaresSort (h : Mirrors s done asserted r) {n : String}
    (hn : s.declaresSort n = true) : r.declaresSort n = true := by
  simp only [Script.declaresSort, sortDeclaration?, List.find?_isSome, decide_eq_true_eq] at hn ⊢
  obtain ⟨d, hd, hname⟩ := hn
  rw [h.sorts]
  exact ⟨_, List.mem_map_of_mem hd, hname⟩

/-- All of the declarations can be read where they stand. -/
def Legible (s : Script) (ids : List DeclId) : Prop :=
  ∀ id ∈ ids, ∃ d, s.arena[id.index]? = some d ∧ d.conforms (s.legible id.index) = true

/-- What was read stays as it is when the script grows. -/
theorem forall₂_agree_mono {ids ids' : List DeclId} (hids : Legible s ids) (hext : r.Extends r')
    (h : List.Forall₂ (Agree (byName s r) s r) ids ids') :
    List.Forall₂ (Agree (byName s r') s r') ids ids' := by
  refine ((List.forall₂_and_left _ _).mpr ⟨hids, h⟩).imp fun i j hij => ?_
  obtain ⟨⟨d, hd, hconf⟩, d', e, hd', he, hde⟩ := hij
  rw [hd, Option.some.injEq] at hd'
  subst hd'
  exact ⟨d, e, hd, hext.decl he, hde.mono (byName_mono hext _) hconf⟩

/-- A declaration of the last kind so far comes last. -/
theorem Mirrors.order_add (h : Mirrors s done [] r) (hadds : r.AddsVariables r₁) {e : Declaration}
    (hlast : ∀ i ∈ done, ∀ k, s.hasKind k i = true → k.rank ≤ e.kind.rank) :
    (r₁.add e).topLevel.Pairwise fun i j => i.index < j.index := by
  have htopLevel : r₁.topLevel = r.topLevel := by rw [hadds.same]; rfl
  have horder : (r₁.topLevel ++ [r₁.nextId]).Pairwise fun i j => i.index < j.index := by
    rw [List.pairwise_append]
    refine ⟨htopLevel ▸ h.order, List.pairwise_singleton _ _, fun i hi j hj => ?_⟩
    obtain rfl := List.mem_singleton.mp hj
    obtain ⟨d, hd, _⟩ := (mem_topLevel (h.coherent.addsVariables hadds)).mp hi
    exact (Array.getElem?_eq_some_iff.mp hd).1
  -- the lists behind that of its kind are still empty
  have hempty : ∀ {k : Declaration.Kind} {ids : List DeclId}, e.kind.rank < k.rank →
      List.Forall₂ (Agree (byName s r) s r) (done.filter (s.hasKind k)) ids → ids = [] := by
    intro k ids hk hids
    have hnone : done.filter (s.hasKind k) = [] := by
      rw [List.filter_eq_nil_iff]
      intro i hi hik
      exact absurd (hlast i hi k hik) (Nat.not_le.mpr hk)
    rw [hnone] at hids
    exact List.forall₂_nil_left_iff.mp hids
  have hconstants : r₁.constants = r.constants := by rw [hadds.same]
  have hdefinitions : r₁.definitions = r.definitions := by rw [hadds.same]
  unfold topLevel at horder ⊢
  unfold Script.add
  match hk : e.kind with
  | .function =>
    rw [hk] at hempty
    rw [hconstants, hdefinitions, hempty (by decide) h.constants,
      hempty (by decide) h.definitions] at horder
    simpa [hconstants, hdefinitions, hempty (by decide) h.constants,
      hempty (by decide) h.definitions] using horder
  | .constant =>
    rw [hk] at hempty
    rw [hdefinitions, hempty (by decide) h.definitions] at horder
    simpa [hdefinitions, hempty (by decide) h.definitions] using horder
  | .definition => simpa using horder
  | .variable => simpa using (List.pairwise_append.mp horder).1

/-- One more declaration, after the variables that its body needs. -/
theorem Mirrors.add (h : Mirrors s done [] r) (hdone : Legible s done)
    (hadds : r.AddsVariables r₁) {id : DeclId} {d e : Declaration}
    (hd : s.arena[id.index]? = some d) (hname : e.name = d.name) (hkind : e.kind = d.kind)
    (hfree : r₁.lookup e.name = none) (hc : (r₁.add e).Coherent)
    (hde : d.Corresponds (byName s (r₁.add e)) e)
    (hlast : ∀ i ∈ done, ∀ k, s.hasKind k i = true → k.rank ≤ d.kind.rank) :
    Mirrors s (done ++ [id]) [] (r₁.add e) := by
  have hext := hadds.extension.trans (extends_add hfree)
  have hagree : Agree (byName s (r₁.add e)) s (r₁.add e) id r₁.nextId :=
    ⟨d, e, hd, add_getElem? r₁ e, hde⟩
  -- each list grows if the declaration is of its kind
  have hlist : ∀ (k : Declaration.Kind) {ids : List DeclId},
      List.Forall₂ (Agree (byName s r) s r) (done.filter (s.hasKind k)) ids →
        List.Forall₂ (Agree (byName s (r₁.add e)) s (r₁.add e))
          ((done ++ [id]).filter (s.hasKind k)) (ids ++ if e.kind = k then [r₁.nextId] else []) := by
    intro k ids hids
    have hold := forall₂_agree_mono (fun i hi => hdone i (List.mem_of_mem_filter hi)) hext hids
    rw [List.filter_append]
    refine List.rel_append hold ?_
    by_cases hk : e.kind = k
    · rw [if_pos hk, List.filter_singleton, (hasKind_iff hd).mpr (hkind ▸ hk)]
      exact .cons hagree .nil
    · have hk' : s.hasKind k id = false := by
        rw [← Bool.not_eq_true, hasKind_iff hd, ← hkind]
        exact hk
      rw [if_neg hk, List.filter_singleton, hk']
      exact .nil
  have hsame := hadds.same
  refine ⟨hc, ?_, ?_, ?_, ?_, fun name => ?_, h.order_add hadds (hkind ▸ hlast), ?_⟩
  · show r₁.sorts = _
    rw [hsame]
    exact h.sorts
  · have hfunctions := hlist .function h.functions
    rwa [show r.functions = r₁.functions by rw [hsame]] at hfunctions
  · have hconstants := hlist .constant h.constants
    rwa [show r.constants = r₁.constants by rw [hsame]] at hconstants
  · have hdefinitions := hlist .definition h.definitions
    rwa [show r.definitions = r₁.definitions by rw [hsame]] at hdefinitions
  · have hlookup : (r₁.lookup name).isSome = true ↔ ∃ i ∈ done, s.nameOf i = name := by
      rw [Script.lookup, hadds.index]
      exact h.names name
    simp only [List.mem_append, List.mem_singleton, or_and_right, exists_or, exists_eq_left,
      ← hlookup, Option.isSome_iff_exists, lookup_add hfree, nameOf_eq hd, ← hname]
  · show List.Forall₂ _ [] r₁.assertions
    rw [hsame]
    show List.Forall₂ _ [] r.assertions
    have hnil := h.assertions
    rw [List.forall₂_nil_left_iff] at hnil ⊢
    exact hnil

end Mirrors

/-! ## One command -/

section Commands

variable {r r' : Script} {done : List DeclId} {name : Option String} {args : List SExpr}

theorem readCommand_sort : readCommand .script name (.symbol "declare-sort" :: args) =
    declareSort (.list (.symbol "declare-sort" :: args)) args := rfl

theorem readCommand_function : readCommand .script name (.symbol "declare-fun" :: args) =
    declareFunction (.list (.symbol "declare-fun" :: args)) args := rfl

theorem readCommand_constant : readCommand .script name (.symbol "declare-const" :: args) =
    declareConstant (.list (.symbol "declare-const" :: args)) args := rfl

theorem readCommand_definition : readCommand .script name (.symbol "define-fun" :: args) =
    defineFunction (.list (.symbol "define-fun" :: args)) args := rfl

theorem readCommand_assertion : readCommand .script name (.symbol "assert" :: args) =
    assertTerm name (.list (.symbol "assert" :: args)) args := rfl

theorem reads_declareSort {command : SExpr} {sort : String} {arity : Nat}
    (hfits : Text.fitsUnsigned32 arity = true) (hfree : r.sortDeclaration? sort = none) :
    Reads (declareSort command [.symbol sort, .numeral arity]) r ()
      { r with sorts := r.sorts ++ [⟨sort, arity, none⟩] } := by
  rw [declareSort, if_pos hfits]
  refine reads_bind.mpr ⟨r, r, reads_get.mpr ⟨rfl, rfl⟩, reads_bind.mpr
    ⟨_, r, reads_check.mpr ⟨?_, rfl⟩, rfl⟩⟩
  exact declareSort_eq_ok.mpr ⟨hfree, rfl⟩

theorem reads_discard {α : Type} {m : Reader α} {a : α} (h : Reads m r a r') :
    Reads (discard m) r () r' := reads_map.mpr ⟨a, h, rfl⟩

theorem reads_declareFunction {command : SExpr} {function : String} {inputs : List TermSort}
    {output : TermSort} {declared : String → Bool}
    (hsorts : ∀ {n}, declared n = true → r.declaresSort n = true)
    (hinputs : ∀ sort ∈ inputs, sort.legible declared = true)
    (houtput : output.legible declared = true) (hfree : r.lookup function = none) :
    Reads (declareFunction command [.symbol function, .list (TermSort.forms inputs), output.form])
      r () (r.add (.function function inputs output)) := by
  have hinputs := readSorts_forms hsorts (TermSort.legibleAll_iff.mpr hinputs)
  refine reads_bind.mpr ⟨r, r, reads_get.mpr ⟨rfl, rfl⟩, reads_bind.mpr
    ⟨inputs, r, reads_lift.mpr ⟨hinputs, rfl⟩, reads_bind.mpr
      ⟨output, r, reads_lift.mpr ⟨readSort_form hsorts houtput, rfl⟩, ?_⟩⟩⟩
  exact reads_discard (reads_declare.mpr (declareFunction_eq_add.mpr ⟨hfree, rfl, rfl⟩))

theorem reads_declareConstant {command : SExpr} {constant : String} {sort : TermSort}
    {declared : String → Bool} (hsorts : ∀ {n}, declared n = true → r.declaresSort n = true)
    (hsort : sort.legible declared = true) (hfree : r.lookup constant = none) :
    Reads (declareConstant command [.symbol constant, sort.form]) r ()
      (r.add (.constant constant sort)) := by
  refine reads_bind.mpr ⟨r, r, reads_get.mpr ⟨rfl, rfl⟩, reads_bind.mpr
    ⟨sort, r, reads_lift.mpr ⟨readSort_form hsorts hsort, rfl⟩, ?_⟩⟩
  exact reads_discard (reads_declare.mpr (declareConstant_eq_add.mpr ⟨hfree, rfl, rfl⟩))

theorem reads_defineFunction {function : String} {parameters : List DeclId}
    {output : TermSort} {body : Term} {limit : Nat} (hk : Knows s limit r)
    (hconf : (Declaration.definition function parameters output body).conforms (s.legible limit) =
      true) (hfree : r.lookup function = none) :
    ∃ parameters' body' r₁, (∀ command, Reads (defineFunction command [.symbol function,
        .list (parameters.map s.bindingForm), output.form, s.form body]) r ()
          (r₁.add (.definition function parameters' output body'))) ∧
      r.AddsVariables r₁ ∧ List.Forall₂ (byName s r₁).binder parameters parameters' ∧
      body.Corresponds (byName s r₁) (Pairing.bind [] parameters parameters') body' := by
  simp only [Declaration.conforms, Bool.and_eq_true, List.all_eq_true] at hconf
  obtain ⟨⟨⟨_, hparameters⟩, houtput⟩, hbody⟩ := hconf
  obtain ⟨parameters', r₁, hbound, hadds, hbinders⟩ := reads_bindings hk hparameters
  have hscope := Pairing.map_fst_bind (ρ := []) hbinders
  rw [List.map_nil, List.append_nil] at hscope
  rw [← hscope] at hbody
  obtain ⟨body', r₂, hread, hadds', hcorr⟩ := reads_form (hk.addsVariables hadds) hbody
  rw [scope_bind, show s.scope [] = [] from rfl, List.append_nil] at hread
  have hall := hadds.trans hadds'
  have hmono := byName_mono (s := s) hadds'.extension (s.legible limit)
  have hbinders' := hbinders.imp fun _ _ => hmono.binder
  refine ⟨parameters', body', r₂, fun command => ?_, hall, hbinders', hcorr⟩
  refine reads_bind.mpr ⟨r, r, reads_get.mpr ⟨rfl, rfl⟩, reads_bind.mpr
    ⟨output, r, reads_lift.mpr ⟨readSort_form hk.sorts houtput, rfl⟩, reads_bind.mpr
      ⟨_, r₁, hbound, reads_bind.mpr ⟨body', r₂, hread, ?_⟩⟩⟩⟩
  rw [map_snd_bound hbinders.length_eq]
  refine reads_discard (a := r₂.nextId) (reads_declare.mpr (defineFunction_eq_add.mpr
    ⟨?_, binders_variables hbinders', rfl, rfl⟩))
  rw [Script.lookup, hall.index]
  exact hfree

/-- The next declaration, with what it needs already read. -/
theorem reads_declaration (h : Mirrors s done [] r) (hdone : Legible s done) {id : DeclId}
    {d : Declaration} (hd : s.arena[id.index]? = some d)
    (hconf : d.conforms (s.legible id.index) = true) (hfresh : ∀ i ∈ done, s.nameOf i ≠ d.name)
    (hknows : d.kind = .definition → Knows s id.index r)
    (hlast : ∀ i ∈ done, ∀ k, s.hasKind k i = true → k.rank ≤ d.kind.rank) :
    ∃ items r', s.declarationForm d = .list items ∧
      Reads (readCommand .script none items) r () r' ∧ Mirrors s (done ++ [id]) [] r' := by
  have hfree : r.lookup d.name = none := by
    rw [← Option.not_isSome_iff_eq_none, h.names]
    intro hex
    obtain ⟨i, hi, hname⟩ := hex
    exact hfresh i hi hname
  cases d with
  | function name inputs output =>
    simp only [Declaration.conforms, Bool.and_eq_true, List.all_eq_true] at hconf
    refine ⟨_, _, rfl, ?_, h.add hdone (.refl r) hd rfl rfl hfree
      (h.coherent.add hfree (fun hk => by cases hk) fun hd => by cases hd) rfl hlast⟩
    rw [readCommand_function]
    exact reads_declareFunction h.declaresSort hconf.1.2 hconf.2 hfree
  | constant name sort =>
    simp only [Declaration.conforms, Bool.and_eq_true] at hconf
    refine ⟨_, _, rfl, ?_, h.add hdone (.refl r) hd rfl rfl hfree
      (h.coherent.add hfree (fun hk => by cases hk) fun hd => by cases hd) rfl hlast⟩
    rw [readCommand_constant]
    exact reads_declareConstant h.declaresSort hconf.2 hfree
  | definition name parameters output body =>
    obtain ⟨parameters', body', r₁, hread, hadds, hbinders, hcorr⟩ :=
      reads_defineFunction (hknows rfl) hconf hfree
    have hfree' : r₁.lookup name = none := by
      rw [Script.lookup, hadds.index]
      exact hfree
    have hmono := byName_mono (s := s)
      (extends_add (d := .definition name parameters' output body') hfree') (s.legible id.index)
    rw [Declaration.conforms, Bool.and_eq_true] at hconf
    have hscope := Pairing.map_fst_bind (ρ := []) hbinders
    rw [List.map_nil, List.append_nil] at hscope
    refine ⟨_, r₁.add (.definition name parameters' output body'), rfl, ?_,
      h.add hdone hadds hd rfl rfl hfree' ?_ ?_ hlast⟩
    · rw [readCommand_definition]
      exact hread _
    · refine (h.coherent.addsVariables hadds).add hfree' (fun hk => by cases hk) fun hd p hp => ?_
      cases hd
      exact binders_variables hbinders p hp
    · refine ⟨parameters', body', rfl, hbinders.imp fun _ _ => hmono.binder, ?_⟩
      exact hcorr.mono hmono trivial (hscope ▸ hconf.2)
  | _ => cases hconf

end Commands

/-! ## All commands -/

/-- Reading these items takes the reader from one state to another, whatever
comes after them. -/
def Runs (items : List SExpr) (counts : List (String × Nat)) (r : Script)
    (counts' : List (String × Nat)) (r' : Script) : Prop :=
  ∀ (rest : List SExpr) (result : List (String × Nat)) (r'' : Script),
    Reads (readCommands .script none counts' rest) r' result r'' →
      Reads (readCommands .script none counts (items ++ rest)) r result r''

section Runs

variable {r r₁ r' : Script} {counts counts₁ counts' : List (String × Nat)} {items : List SExpr}

theorem runs_nil : Runs [] counts r counts r := fun _ _ _ h => h

theorem Runs.append {items' : List SExpr} (h : Runs items counts r counts₁ r₁)
    (h' : Runs items' counts₁ r₁ counts' r') : Runs (items ++ items') counts r counts' r' := by
  intro rest result r'' hrest
  rw [List.append_assoc]
  exact h _ _ _ (h' _ _ _ hrest)

theorem runs_command (h : Reads (readCommand .script none items) r () r') :
    Runs [.list items] counts r counts r' :=
  fun _ _ _ hrest => reads_bind.mpr ⟨(), r', h, hrest⟩

theorem runs_prelude : Runs preludeForms counts r counts r := fun _ _ _ h => h

theorem runs_sorts {sorts : List SortDeclaration} {r : Script}
    (hfits : ∀ d ∈ sorts, Text.fitsUnsigned32 d.arity = true)
    (hnodup : ((r.sorts ++ sorts).map (·.name)).Nodup) :
    Runs (sorts.map sortDeclarationForm) counts r counts
      { r with sorts := r.sorts ++ sorts.map fun d => ⟨d.name, d.arity, none⟩ } := by
  induction sorts generalizing r with
  | nil =>
    rw [List.map_nil, List.map_nil, List.append_nil]
    exact runs_nil
  | cons d sorts ih =>
    rw [List.forall_mem_cons] at hfits
    have hfree : r.sortDeclaration? d.name = none := by
      rw [sortDeclaration?, List.find?_eq_none]
      intro e he hname
      rw [List.map_append, List.nodup_append'] at hnodup
      refine hnodup.2.2 (List.mem_map_of_mem he) ?_
      rw [decide_eq_true_eq.mp hname]
      exact List.mem_map_of_mem List.mem_cons_self
    have hfirst : Runs [sortDeclarationForm d] counts r counts
        { r with sorts := r.sorts ++ [⟨d.name, d.arity, none⟩] } := by
      refine runs_command ?_
      rw [readCommand_sort]
      exact reads_declareSort hfits.1 hfree
    have hrest := ih (r := { r with sorts := r.sorts ++ [⟨d.name, d.arity, none⟩] }) hfits.2 (by
      simpa using hnodup)
    rw [List.append_assoc] at hrest
    exact hfirst.append hrest

theorem nameOf_injOn (hc : s.Coherent) {i j : DeclId} (hi : i ∈ s.topLevel) (hj : j ∈ s.topLevel)
    (h : s.nameOf i = s.nameOf j) : i = j := by
  obtain ⟨d, hd, hdkind⟩ := (mem_topLevel hc).mp hi
  obtain ⟨e, he, hekind⟩ := (mem_topLevel hc).mp hj
  rw [nameOf_eq hd, nameOf_eq he] at h
  have hlookup := hc.lookup.mpr ⟨d, hd, h, hdkind⟩
  rw [hc.lookup.mpr ⟨e, he, rfl, hekind⟩, Option.some.injEq] at hlookup
  exact hlookup.symm

/-- All declarations that are left, in the order of print. -/
theorem runs_declarations (hc : s.Coherent) (hs : Legible s s.topLevel) {done rest : List DeclId}
    {r : Script} (h : s.topLevel = done ++ rest) (hr : Mirrors s done [] r) :
    ∃ r', Runs (rest.map s.formAt) counts r counts r' ∧ Mirrors s s.topLevel [] r' := by
  induction rest generalizing done r with
  | nil =>
    rw [List.append_nil] at h
    exact ⟨r, runs_nil, h ▸ hr⟩
  | cons id rest ih =>
    have hmem : ∀ i ∈ done, i ∈ s.topLevel := fun i hi => by simp [h, hi]
    have hid : id ∈ s.topLevel := by simp [h]
    obtain ⟨d, hd, hconf⟩ := hs id hid
    have hfresh : ∀ i ∈ done, s.nameOf i ≠ d.name := by
      intro i hi hname
      rw [← nameOf_eq hd] at hname
      have hnodup := nodup_topLevel hc
      rw [h, List.nodup_append'] at hnodup
      exact hnodup.2.2 (nameOf_injOn hc (hmem i hi) hid hname ▸ hi) List.mem_cons_self
    have hknows : d.kind = .definition → Knows s id.index r := by
      intro hkind
      refine ⟨hr.declaresSort, fun {n i} hn hprecedes => (hr.names n).mpr ⟨i, ?_, ?_⟩⟩
      · obtain ⟨e, he, _, hekind⟩ := hc.lookup.mp hn
        exact mem_before_definition hc h ((hasKind_iff hd).mpr hkind)
          ((mem_topLevel hc).mpr ⟨e, he, hekind⟩) hprecedes
      · exact nameOf_lookup hc hn
    have hlast : ∀ i ∈ done, ∀ k, s.hasKind k i = true → k.rank ≤ d.kind.rank := by
      intro i hi k hk
      have hranked := topLevel_ranked hc
      rw [h, List.pairwise_append] at hranked
      exact hranked.2.2 i hi id List.mem_cons_self k d.kind hk ((hasKind_iff hd).mpr rfl)
    obtain ⟨items, r₁, hitems, hread, hr₁⟩ :=
      reads_declaration hr (fun i hi => hs i (hmem i hi)) hd hconf hfresh hknows hlast
    have hsplit : s.topLevel = (done ++ [id]) ++ rest := by simp [h]
    obtain ⟨r', hruns, hr'⟩ := ih hsplit hr₁
    refine ⟨r', ?_, hr'⟩
    rw [List.map_cons, formAt, hd]
    show Runs ([s.declarationForm d] ++ rest.map s.formAt) counts r counts r'
    rw [hitems]
    exact (runs_command hread).append hruns

/-- One more assertion, after the variables that it needs. -/
theorem Mirrors.addAssertion {asserted : List Assertion} (h : Mirrors s s.topLevel asserted r)
    (hs : Legible s s.topLevel)
    (hasserted : ∀ a ∈ asserted, a.formula.conforms (s.legible s.arena.size) [] = true)
    (hadds : r.AddsVariables r₁) {a : Assertion} {formula : Term}
    (ha : a.formula.Corresponds (byName s r₁) [] formula) :
    Mirrors s s.topLevel (asserted ++ [a])
      (r₁.addAssertion (a.name.bind readName) formula) := by
  have hsame := hadds.same
  have hlist : ∀ (k : Declaration.Kind) {ids : List DeclId},
      List.Forall₂ (Agree (byName s r) s r) (s.topLevel.filter (s.hasKind k)) ids →
        List.Forall₂ (Agree (byName s r₁) s r₁) (s.topLevel.filter (s.hasKind k)) ids :=
    fun k ids hids => forall₂_agree_mono (fun i hi => hs i (List.mem_of_mem_filter hi))
      hadds.extension hids
  refine ⟨(h.coherent.addsVariables hadds).addAssertion _ _, ?_, ?_, ?_, ?_, fun name => ?_, ?_, ?_⟩
  · show r₁.sorts = _
    rw [hsame]
    exact h.sorts
  · show List.Forall₂ _ _ r₁.functions
    rw [show r₁.functions = r.functions by rw [hsame]]
    exact hlist _ h.functions
  · show List.Forall₂ _ _ r₁.constants
    rw [show r₁.constants = r.constants by rw [hsame]]
    exact hlist _ h.constants
  · show List.Forall₂ _ _ r₁.definitions
    rw [show r₁.definitions = r.definitions by rw [hsame]]
    exact hlist _ h.definitions
  · show (r₁.lookup name).isSome = true ↔ _
    rw [Script.lookup, hadds.index]
    exact h.names name
  · show r₁.topLevel.Pairwise _
    rw [hsame]
    exact h.order
  · show List.Forall₂ _ (asserted ++ [a]) (r₁.assertions ++ [⟨a.name.bind readName, formula⟩])
    rw [hadds.assertions]
    refine List.rel_append ?_ (.cons ⟨rfl, ha⟩ .nil)
    refine ((List.forall₂_and_left _ _).mpr ⟨hasserted, h.assertions⟩).imp fun a b hab => ?_
    exact ⟨hab.2.1, hab.2.2.mono (byName_mono hadds.extension _) trivial hab.1⟩

theorem runs_assertion {a : Assertion} {items : List SExpr}
    (h : Reads (readCommand .script (a.name.bind readName) items) r () r') :
    Runs ((a.name.map commentForm).toList ++ [.list items]) counts r
      ((a.name.bind report?).toList.foldr insertCount counts) r' := by
  intro rest result r'' hrest
  obtain ⟨name, formula⟩ := a
  cases name with
  | none => exact runs_command h _ _ _ hrest
  | some name =>
    show Reads (readCommands .script none counts (.atom (heard name) :: .list items :: rest)) r _ _
    simp only [Option.bind_some, readName, report?] at h hrest
    cases hheard : heard name with
    | comment text =>
      rw [hheard] at h hrest
      exact reads_bind.mpr ⟨(), r', h, hrest⟩
    | cardinality sort count =>
      rw [hheard] at h hrest
      exact reads_bind.mpr ⟨(), r', h, hrest⟩
    | symbol _ | keyword _ | numeral _ | string _ =>
      have hremark := Token.isRemark_commentAtom (Text.trim (' ' :: name.toList))
      rw [show Token.commentAtom _ = _ from hheard] at hremark
      cases hremark

/-- All assertions that are left. -/
theorem runs_assertions (hc : s.Coherent) (hs : Legible s s.topLevel)
    (hasserts : ∀ a ∈ s.assertions, a.formula.conforms (s.legible s.arena.size) [] = true)
    {asserted rest : List Assertion} {r : Script} (h : s.assertions = asserted ++ rest)
    (hr : Mirrors s s.topLevel asserted r) :
    ∃ r', Runs (rest.flatMap s.assertionForms) (tally (reports asserted)) r
      (tally (reports s.assertions)) r' ∧ Mirrors s s.topLevel s.assertions r' := by
  induction rest generalizing asserted r with
  | nil =>
    rw [List.append_nil] at h
    exact ⟨r, h ▸ runs_nil, h ▸ hr⟩
  | cons a rest ih =>
    have hknows : Knows s s.arena.size r := by
      refine ⟨hr.declaresSort, fun {n i} hn _ => (hr.names n).mpr ⟨i, ?_, nameOf_lookup hc hn⟩⟩
      obtain ⟨e, he, _, hekind⟩ := hc.lookup.mp hn
      exact (mem_topLevel hc).mpr ⟨e, he, hekind⟩
    obtain ⟨formula, r₁, hread, hadds, hcorr⟩ :=
      reads_form (ρ := []) hknows (hasserts a (by simp [h]))
    have hcommand : Reads (readCommand .script (a.name.bind readName)
        [.symbol "assert", s.form a.formula]) r ()
          (r₁.addAssertion (a.name.bind readName) formula) := by
      rw [readCommand_assertion]
      exact reads_bind.mpr ⟨formula, r₁, hread, rfl⟩
    have hr₁ := hr.addAssertion hs (fun b hb => hasserts b (by simp [h, hb])) hadds hcorr
    have hsplit : s.assertions = (asserted ++ [a]) ++ rest := by simp [h]
    obtain ⟨r', hruns, hr'⟩ := ih hsplit hr₁
    refine ⟨r', ?_, hr'⟩
    rw [reports_concat, tally, List.foldr_append] at hruns
    exact (runs_assertion hcommand).append hruns

theorem runs_commandForms {label : String → Bool} (hc : s.Coherent)
    (hs : s.conforms s.legible label = true) :
    ∃ r, Runs s.commandForms [] empty (tally (reports s.assertions)) r ∧
      Mirrors s s.topLevel s.assertions r := by
  obtain ⟨hsorts, hdecls, hasserts⟩ := conforms_iff.mp hs
  have hsorts : Runs (s.sorts.map sortDeclarationForm) [] empty []
      { empty with sorts := s.sorts.map fun d => ⟨d.name, d.arity, none⟩ } :=
    runs_sorts (fun d hd => (hsorts d hd).2) hc.sortNames
  have hstart : Mirrors s [] []
      { empty with sorts := s.sorts.map fun d => ⟨d.name, d.arity, none⟩ } := by
    refine ⟨coherent_empty.of_declarations rfl rfl rfl rfl rfl ?_, rfl, .nil, .nil, .nil,
      fun name => ⟨nofun, fun ⟨_, h, _⟩ => nomatch h⟩, .nil, .nil⟩
    rw [List.map_map]
    exact hc.sortNames
  obtain ⟨r₁, hruns₁, hr₁⟩ := runs_declarations hc hdecls (List.nil_append _).symm hstart
  obtain ⟨r, hruns, hr⟩ := runs_assertions hc hdecls (fun a ha => (hasserts a ha).2)
    (List.nil_append _).symm hr₁
  exact ⟨r, ((runs_prelude.append hsorts).append hruns₁).append hruns, hr⟩

end Runs

end Reader

open Reader

theorem Reader.Mirrors.corresponds (hc : s.Coherent) {r : Script}
    (h : Mirrors s s.topLevel s.assertions r) : Corresponds (byName s r) s r := by
  obtain ⟨hfunctions, hconstants, hdefinitions⟩ := filter_topLevel hc
  refine ⟨?_, hfunctions ▸ h.functions, hconstants ▸ h.constants, hdefinitions ▸ h.definitions,
    h.assertions.imp fun _ _ hab => hab.2⟩
  rw [h.sorts, List.map_map]
  rfl

/-- The forms of a legible script are read as what they mean by name. Names of
assertions are read as comments, and the sorts get the cardinalities that
these report. -/
theorem ofSExprs_commandForms {label : String → Bool} (hc : s.Coherent)
    (hs : s.conforms s.legible label = true) :
    ∃ t, ofSExprs .script s.commandForms = .ok t ∧ t.Coherent ∧
      Corresponds (byName s t) s t ∧ t.topLevel.Pairwise (fun i j => i.index < j.index) ∧
      t.assertions.map (·.name) = s.assertions.map (fun a => a.name.bind readName) ∧
      t.sorts = s.sorts.map
        fun d => ⟨d.name, d.arity, (reports s.assertions).lookup d.name⟩ := by
  obtain ⟨r, hruns, hr⟩ := runs_commandForms hc hs
  have hread := hruns [] _ r (reads_pure.mpr ⟨rfl, rfl⟩)
  rw [List.append_nil] at hread
  have hsorts : (attach (reports s.assertions) r).sorts = s.sorts.map
      fun d => ⟨d.name, d.arity, (reports s.assertions).lookup d.name⟩ := by
    rw [attach, hr.sorts, List.map_map]
    refine List.map_congr_left fun d _ => ?_
    rw [Function.comp_apply]
    cases (reports s.assertions).lookup d.name <;> rfl
  have hcorr := hr.corresponds hc
  refine ⟨attach (reports s.assertions) r, ?_, ?_, ?_, hr.order, ?_, hsorts⟩
  · rw [ofSExprs_eq_attach]
    exact bind_eq_ok.mpr ⟨(tally (reports s.assertions), r), hread,
      congrArg Except.ok (attach_tally (reports s.assertions) r)⟩
  · refine hr.coherent.of_declarations rfl rfl rfl rfl rfl ?_
    rw [hsorts, List.map_map]
    exact hc.sortNames
  · refine ⟨?_, hcorr.functions, hcorr.constants, hcorr.definitions, hcorr.assertions⟩
    rw [hsorts, List.map_map]
    rfl
  · have hnames : List.Forall₂ (fun a b : Assertion => a.name.bind readName = b.name)
        s.assertions r.assertions := hr.assertions.imp fun _ _ hab => hab.1.symm
    rw [← List.forall₂_map_right_iff, ← List.forall₂_map_left_iff, List.forall₂_eq_eq_eq] at hnames
    exact hnames.symm

end TupleLogic.Script
