import TupleLogic.Proofs.GroundedTerms

/-! What an encoder leaves behind. From the built-in declarations on, a script
grows by variables under drawn names, by relations, and by constants and sets
that are counted; every assertion that is added is grounded. `Keeps` says that
an encoder keeps it so, and what else holds of its result. -/

namespace TupleLogic

/-! ## Drawn names -/

namespace NameSupply

theorem toList_variableName (n : Nat) :
    (variableName n).toList = '_' :: 'x' :: (toString n).toList := by
  simp [variableName]

theorem toList_elementName (n : Nat) :
    (elementName n).toList = '_' :: 'a' :: (toString n).toList := by
  simp [elementName]

theorem toList_setName (n : Nat) : (setName n).toList = '_' :: 'S' :: (toString n).toList := by
  simp [setName]

theorem eq_of_digits {i j : Nat} (h : (toString i).toList = (toString j).toList) : i = j := by
  have hdigits := congrArg (fun ds => Nat.ofDigitChars 10 ds 0) h
  simpa [Nat.toString_eq_ofList_toDigits] using hdigits

theorem variableName_injective {i j : Nat} (h : variableName i = variableName j) : i = j := by
  have hlist := congrArg String.toList h
  simp only [toList_variableName, List.cons.injEq, true_and] at hlist
  exact eq_of_digits hlist

theorem elementName_injective {i j : Nat} (h : elementName i = elementName j) : i = j := by
  have hlist := congrArg String.toList h
  simp only [toList_elementName, List.cons.injEq, true_and] at hlist
  exact eq_of_digits hlist

theorem setName_injective {i j : Nat} (h : setName i = setName j) : i = j := by
  have hlist := congrArg String.toList h
  simp only [toList_setName, List.cons.injEq, true_and] at hlist
  exact eq_of_digits hlist

theorem elementName_ne_setName (i j : Nat) : elementName i ≠ setName j := by
  intro h
  have hlist := congrArg String.toList h
  simp [toList_elementName, toList_setName] at hlist

theorem elementName_ne_variableName (i j : Nat) : elementName i ≠ variableName j := by
  intro h
  have hlist := congrArg String.toList h
  simp [toList_variableName, toList_elementName] at hlist

theorem setName_ne_variableName (i j : Nat) : setName i ≠ variableName j := by
  intro h
  have hlist := congrArg String.toList h
  simp [toList_variableName, toList_setName] at hlist

end NameSupply

open NameSupply (variableName elementName setName)

/-- Sorts are built from those that every encoding has, and nothing is defined. -/
def Declaration.encodable : Declaration → Bool
  | .function _ inputs output => inputs.all TermSort.encodable && output.encodable
  | .constant _ sort | .variable _ sort => sort.encodable
  | .definition .. => false

theorem Declaration.encodable_sort {d : Declaration} (h : d.encodable = true) :
    d.sort.encodable = true := by
  cases d with
  | function name inputs output =>
    rw [encodable, Bool.and_eq_true] at h
    exact h.2
  | definition => cases h
  | _ => exact h

/-- The names of the relations for signatures and fields. -/
def Relational.Model.relationNames (m : Model) : List String :=
  m.signatures.flatMap fun g =>
    Encoding.relationName g.label :: g.fields.map (Encoding.fieldName g)

/-- What may be declared after the built-in declarations, where variables have
been counted from `start` to `count`. -/
def Declaration.Follows (m : Relational.Model) (start count : Nat) : Declaration → Prop
  | .variable name _ => ∃ k, start < k ∧ k ≤ count ∧ name = variableName k
  | .constant name _ => ∃ k, name = elementName k
  | .function name _ _ => name ∈ m.relationNames ∨ ∃ k, name = setName k
  | .definition .. => False

theorem Declaration.Follows.mono {m : Relational.Model} {start count count' : Nat}
    {d : Declaration} (h : d.Follows m start count) (hle : count ≤ count') :
    d.Follows m start count' := by
  match d, h with
  | .variable _ _, ⟨k, hlo, hhi, hname⟩ => exact ⟨k, hlo, Nat.le_trans hhi hle, hname⟩
  | .constant _ _, h | .function _ _ _, h => exact h

namespace Encoding

open Relational Encoder

/-- The state of an encoding of `m` that began with `start` variables drawn. -/
structure Sound (m : Model) (start : Nat) (p : Progress) : Prop where
  coherent : p.script.Coherent
  builtin : builtinScript.Extends p.script
  sorts : p.script.sorts = builtinScript.sorts
  counted : start ≤ p.names.variableCount
  encodable : ∀ {i : Nat} {d : Declaration}, p.script.arena[i]? = some d → d.encodable = true
  follows : ∀ {i : Nat} {d : Declaration}, builtinScript.arena.size ≤ i →
    p.script.arena[i]? = some d → d.Follows m start p.names.variableCount
  distinct : ∀ {i j : Nat} {name : String} {sort sort' : TermSort},
    builtinScript.arena.size ≤ i → builtinScript.arena.size ≤ j →
    p.script.arena[i]? = some (.variable name sort) →
    p.script.arena[j]? = some (.variable name sort') → i = j
  assertions : ∀ a ∈ p.script.assertions,
    a ∈ builtinScript.assertions ∨ Grounded p.script [] a.formula

/-! ## The built-in declarations -/

theorem built_builtinScript : builtinScript.Built := by
  have h := Script.Built.declareSort .empty (show Script.empty.declareSort "Atom" 0 = .ok _ from rfl)
  have h := h.declareSort (show Script.declareSort _ "UnaryIntTup" 0 = .ok _ from rfl)
  have h := h.declareSort (show Script.declareSort _ "BinaryIntTup" 0 = .ok _ from rfl)
  have h := h.declareSort (show Script.declareSort _ "TernaryIntTup" 0 = .ok _ from rfl)
  have h := h.declareFunction (show Script.declareFunction _ "value_of_unaryIntTup" [unaryIntSort]
    (.tuple [.int]) = .ok (_, _) from rfl)
  have h := h.declareFunction (show Script.declareFunction _ "value_of_binaryIntTup"
    [binaryIntSort] (.tuple [.int, .int]) = .ok (_, _) from rfl)
  have h := h.declareFunction (show Script.declareFunction _ "value_of_ternaryIntTup"
    [ternaryIntSort] (.tuple [.int, .int, .int]) = .ok (_, _) from rfl)
  have h := h.declareFunction (show Script.declareFunction _ "atomUniv" []
    (relationSort [.atom]) = .ok (_, _) from rfl)
  have h := h.declareFunction (show Script.declareFunction _ "atomNone" []
    (relationSort [.atom]) = .ok (_, _) from rfl)
  have h := h.declareFunction (show Script.declareFunction _ "atomIden" []
    (relationSort [.atom, .atom]) = .ok (_, _) from rfl)
  have h := (h.addAssertion none (.equals (.ref ⟨4⟩) (.emptySet unaryRelation))).addAssertion none
    (.equals (.ref ⟨3⟩) (.fullSet unaryRelation))
  have h := (h.addVariable "x" .atom).addVariable "y" .atom
  exact h.addAssertion none (.quantified .all [⟨6⟩, ⟨7⟩] (.equals (.member
    (.nary .tuple [.ref ⟨6⟩, .ref ⟨7⟩]) (.ref ⟨5⟩)) (.equals (.ref ⟨6⟩) (.ref ⟨7⟩))))

section Growth

variable {m : Model} {start : Nat} {p q : Progress}

/-- The state before any variable is drawn. -/
theorem sound_builtinScript {names : NameSupply} :
    Sound m names.variableCount ⟨builtinScript, names⟩ where
  coherent := built_builtinScript.coherent
  builtin := .refl _
  sorts := rfl
  counted := Nat.le_refl _
  encodable := by
    intro i d hd
    have hall : ∀ d ∈ builtinScript.arena.toList, d.encodable = true := by decide +kernel
    exact hall d (Array.mem_toList_iff.mpr (Array.mem_of_getElem? hd))
  follows := by
    intro i d hi hd
    rw [Array.getElem?_eq_none hi] at hd
    cases hd
  distinct := by
    intro i j name sort sort' hi _ hd
    rw [Array.getElem?_eq_none hi] at hd
    cases hd
  assertions a ha := .inl ha

/-! ## One step -/

/-- Assertions and at most one declaration are added. A new variable has a name
that no variable had before. -/
theorem Sound.grow (hp : Sound m start p) (hpq : p.script.Extends q.script)
    (hc : q.script.Coherent) (hsorts : q.script.sorts = p.script.sorts)
    (hcount : p.names.variableCount ≤ q.names.variableCount)
    (hnew : ∀ {i d}, q.script.arena[i]? = some d → p.script.arena[i]? = some d ∨
      i = p.script.arena.size ∧ d.encodable = true ∧ d.Follows m start q.names.variableCount ∧
        ∀ name sort, d = .variable name sort → ∀ k ≤ p.names.variableCount, name ≠ variableName k)
    (hasserts : ∀ a ∈ q.script.assertions,
      a ∈ p.script.assertions ∨ Grounded q.script [] a.formula) : Sound m start q where
  coherent := hc
  builtin := hp.builtin.trans hpq
  sorts := hsorts.trans hp.sorts
  counted := Nat.le_trans hp.counted hcount
  encodable hd := (hnew hd).elim hp.encodable fun h => h.2.1
  follows hi hd := (hnew hd).elim (fun hd => (hp.follows hi hd).mono hcount) fun h => h.2.2.1
  distinct := by
    -- the new variable is at one position only, and no old one has its name
    have hold : ∀ {i name sort}, builtinScript.arena.size ≤ i →
        p.script.arena[i]? = some (.variable name sort) →
        ∃ k ≤ p.names.variableCount, name = variableName k := fun hi hd => by
      obtain ⟨k, _, hk, hname⟩ := hp.follows hi hd
      exact ⟨k, hk, hname⟩
    intro i j name sort sort' hi hj hdi hdj
    rcases hnew hdi with hdi | ⟨rfl, _, _, hne⟩ <;> rcases hnew hdj with hdj | ⟨rfl, _, _, hne'⟩
    · exact hp.distinct hi hj hdi hdj
    · obtain ⟨k, hk, rfl⟩ := hold hi hdi
      exact absurd rfl (hne' _ _ rfl k hk)
    · obtain ⟨k, hk, rfl⟩ := hold hj hdj
      exact absurd rfl (hne _ _ rfl k hk)
    · rfl
  assertions a ha := by
    rcases hasserts a ha with ha | hnew
    · exact (hp.assertions a ha).imp_right fun h => h.extend hpq
    · exact .inr hnew

theorem Sound.withVariable (hp : Sound m start p) {sort : TermSort}
    (hs : sort.encodable = true) : Sound m start (p.withVariable sort) := by
  refine hp.grow (Script.grows_addVariable _ _ _).extension (hp.coherent.addVariable _ _) rfl
    (Nat.le_succ _) (fun {i d} hd => ?_) fun a ha => .inl ha
  rcases Script.getElem?_push_eq_some.mp hd with hd | ⟨rfl, rfl⟩
  · exact .inl hd
  · refine .inr ⟨rfl, hs, ⟨_, Nat.lt_succ_of_le hp.counted, Nat.le_refl _, rfl⟩, ?_⟩
    intro name sort hd k hk hname
    cases hd
    have hk' := NameSupply.variableName_injective hname
    omega

theorem Sound.add (hp : Sound m start p) {d : Declaration} {names : NameSupply}
    (hfree : p.script.lookup d.name = none) (hkind : d.kind ≠ .variable)
    (hd : d.encodable = true) (hfollows : d.Follows m start p.names.variableCount)
    (hnames : names.variableCount = p.names.variableCount) :
    Sound m start ⟨p.script.add d, names⟩ := by
  have hparameters : ∀ {name : String} {parameters : List DeclId} {output : TermSort} {body : Term},
      d = .definition name parameters output body →
        ∀ x ∈ parameters, x ∈ p.script.entries .variable := by
    intro name parameters output body h
    subst h
    cases hd
  refine hp.grow (Script.extends_add hfree) (hp.coherent.add hfree hkind hparameters) rfl
    hnames.ge (fun {i e} he => ?_) fun a ha => .inl ha
  rcases Script.getElem?_push_eq_some.mp he with he | ⟨rfl, rfl⟩
  · exact .inl he
  · refine .inr ⟨rfl, hd, hnames.symm ▸ hfollows, ?_⟩
    intro name sort h
    subst h
    exact absurd rfl hkind

theorem Sound.addAssertion (hp : Sound m start p) {name : Option String} {t : Term}
    (ht : Grounded p.script [] t) :
    Sound m start { p with script := p.script.addAssertion name t } := by
  refine hp.grow (Script.extends_addAssertion _ _ _) (hp.coherent.addAssertion _ _) rfl
    (Nat.le_refl _) .inl fun a ha => ?_
  rcases List.mem_append.mp ha with ha | ha
  · exact .inl ha
  · rw [List.mem_singleton] at ha
    subst ha
    exact .inr (ht.extend (Script.extends_addAssertion _ _ _))

end Growth

/-! ## Runs -/

/-- A sound state in which the vocabulary is declared. -/
structure Settled (v : Vocabulary) (start : Nat) (p : Progress) : Prop where
  sound : Sound v.model start p
  vocabulary : Declared v p.script

/-- The state after a run, next to the one before it. -/
structure Continues (v : Vocabulary) (start : Nat) (p q : Progress) : Prop where
  settled : Settled v start q
  extension : p.script.Extends q.script

/-- The encoder keeps states settled, and its results satisfy `post`. -/
def Keeps {α : Type} (v : Vocabulary) (start : Nat) (m : Encoder α) (post : Script → α → Prop) :
    Prop :=
  ∀ ⦃p a q⦄, Settled v start p → Returns m p a q → Continues v start p q ∧ post q.script a

section Runs

variable {v : Vocabulary} {start : Nat} {p q r : Progress}

theorem Settled.continues (hp : Settled v start p) (hq : Sound v.model start q)
    (hpq : p.script.Extends q.script) : Continues v start p q :=
  ⟨⟨hq, hp.vocabulary.extend hpq⟩, hpq⟩

theorem Continues.refl (hp : Settled v start p) : Continues v start p p := ⟨hp, .refl _⟩

theorem Continues.trans (h : Continues v start p q) (h' : Continues v start q r) :
    Continues v start p r :=
  ⟨h'.settled, h.extension.trans h'.extension⟩

theorem keeps_freshVariable {sort : TermSort} (hs : sort.encodable = true) :
    Keeps v start (freshVariable sort) fun s x => IsDrawn s x := by
  intro p x q hp h
  obtain ⟨rfl, rfl⟩ := returns_freshVariable.mp h
  refine ⟨hp.continues (hp.sound.withVariable hs) (Script.grows_addVariable _ _ _).extension, ?_⟩
  exact ⟨hp.sound.builtin.size_le, _, _, Script.addVariable_getElem? _ _ _⟩

/-- A function or constant is added, and may be referred to from then on. -/
theorem Settled.add (hp : Settled v start p) {d : Declaration} {names : NameSupply}
    (hfree : p.script.lookup d.name = none) (hkind : d.kind ≠ .variable)
    (hd : d.encodable = true) (hfollows : d.Follows v.model start p.names.variableCount)
    (hnames : names.variableCount = p.names.variableCount) :
    Continues v start p ⟨p.script.add d, names⟩ ∧
      (p.script.add d).precedes 0 p.script.nextId = true := by
  refine ⟨hp.continues (hp.sound.add hfree hkind hd hfollows hnames) (Script.extends_add hfree), ?_⟩
  rw [Script.precedes, Script.add_getElem?]
  rcases d with _ | _ | _ | _
  · rfl
  · rfl
  · cases hd
  · exact absurd rfl hkind

theorem keeps_freshElement {sort : TermSort} (hs : sort.encodable = true) :
    Keeps v start (freshElement sort) fun s x => s.precedes 0 x = true := by
  intro p x q hp h
  simp only [freshElement, drawName, returns_bind, returns_get, returns_modify, returns_pure] at h
  obtain ⟨name, _, ⟨_, _, ⟨rfl, rfl⟩, _, _, rfl, rfl, rfl⟩, h⟩ := h
  obtain ⟨s, hs', rfl⟩ := returns_edit.mp h
  obtain ⟨hfree, rfl, rfl⟩ := Script.declareConstant_eq_add.mp hs'
  exact hp.add hfree (fun hk => by cases hk) hs ⟨_, rfl⟩ rfl

theorem keeps_freshSet {sort : TermSort} (hs : sort.encodable = true) :
    Keeps v start (freshSet sort) fun s x => s.precedes 0 x = true := by
  intro p x q hp h
  simp only [freshSet, drawName, returns_bind, returns_get, returns_modify, returns_pure] at h
  obtain ⟨name, _, ⟨_, _, ⟨rfl, rfl⟩, _, _, rfl, rfl, rfl⟩, h⟩ := h
  obtain ⟨s, hs', rfl⟩ := returns_edit.mp h
  obtain ⟨hfree, rfl, rfl⟩ := Script.declareFunction_eq_add.mp hs'
  exact hp.add hfree (fun hk => by cases hk) hs (.inr ⟨_, rfl⟩) rfl

theorem Settled.assertTerm (hp : Settled v start p) {name : Option String} {t : Term}
    (ht : Grounded p.script [] t) {u : PUnit} (h : Returns (assertTerm name t) p u q) :
    Continues v start p q := by
  obtain rfl := returns_assertTerm.mp h
  exact hp.continues (hp.sound.addAssertion ht) (Script.extends_addAssertion _ _ _)

theorem keeps_mapM {β γ : Type} {f : β → Encoder γ} {xs : List β} {P : Script → γ → Prop}
    (hstable : ∀ {s t c}, s.Extends t → P s c → P t c) (h : ∀ x ∈ xs, Keeps v start (f x) P) :
    Keeps v start (xs.mapM f) fun s ys => ∀ y ∈ ys, P s y := by
  induction xs with
  | nil =>
    intro p ys q hp hys
    obtain ⟨rfl, rfl⟩ := returns_mapM_nil.mp hys
    exact ⟨.refl hp, nofun⟩
  | cons x xs ih =>
    intro p ys q hp hys
    rw [List.forall_mem_cons] at h
    obtain ⟨y, r, ys', hx, hxs, rfl⟩ := returns_mapM_cons.mp hys
    obtain ⟨hr, hy⟩ := h.1 hp hx
    obtain ⟨hq, hys'⟩ := ih h.2 hr.settled hxs
    exact ⟨hr.trans hq, List.forall_mem_cons.mpr ⟨hstable hq.extension hy, hys'⟩⟩

theorem keeps_forM {β : Type} {f : β → Encoder PUnit} {xs : List β}
    (h : ∀ x ∈ xs, Keeps v start (f x) fun _ _ => True) :
    Keeps v start (xs.forM f) fun _ _ => True := by
  induction xs with
  | nil =>
    intro p u q hp hu
    obtain rfl := returns_forM_nil.mp hu
    exact ⟨.refl hp, trivial⟩
  | cons x xs ih =>
    intro p u q hp hu
    rw [List.forall_mem_cons] at h
    obtain ⟨r, hx, hxs⟩ := returns_forM_cons.mp hu
    obtain ⟨hr, _⟩ := h.1 hp hx
    obtain ⟨hq, _⟩ := ih h.2 hr.settled hxs
    exact ⟨hr.trans hq, trivial⟩

/-- The sort of a grounded term is built from those that every encoding has. -/
theorem Settled.encodable_sortOf (hp : Settled v start p) {bound : List DeclId} {t : Term}
    (ht : Grounded p.script bound t) {sort : TermSort} (h : p.script.sortOf t = .ok sort) :
    sort.encodable = true :=
  ht.encodable_sortOf (fun hd => Declaration.encodable_sort (hp.sound.encodable hd)) h

end Runs

end Encoding

end TupleLogic
