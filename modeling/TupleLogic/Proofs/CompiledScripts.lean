import TupleLogic.Proofs.ModelGrounding
import TupleLogic.Proofs.Normalization

/-! Compiled models as texts. Every text that a model is compiled to is read
back as a script with the declarations and assertions of the encoding; and where
no relation has the name of a truth value or of a variable that was drawn, every
name in it leads back to what it is the name of. -/

namespace TupleLogic

open NameSupply (variableName elementName setName)

namespace Script

/-- A variable of a sort that encodings have. -/
def rangesEncodable (s : Script) (id : DeclId) : Bool :=
  match s.arena[id.index]? with
  | some (.variable _ sort) => sort.encodable
  | _ => false

theorem exists_of_rangesEncodable {s : Script} {id : DeclId} (h : s.rangesEncodable id = true) :
    ∃ name sort, s.arena[id.index]? = some (.variable name sort) ∧ sort.encodable = true := by
  unfold rangesEncodable at h
  split at h
  · exact ⟨_, _, ‹_›, h⟩
  · cases h

/-- What encodings say. References go to variables bound around them and to
functions and constants. -/
def encoded (s : Script) : Usage where
  name _ := true
  sort := TermSort.encodable
  binder id := decide (Encoding.builtinScript.arena.size ≤ id.index) && s.rangesEncodable id
  ref bound id := bound.contains id || s.precedes 0 id
  call f args := !args.isEmpty && (Encoding.intSorts.map (·.value)).contains f

theorem binder_encoded {s : Script} {id : DeclId} (h : s.encoded.binder id = true) :
    Encoding.builtinScript.arena.size ≤ id.index ∧
      ∃ name sort, s.arena[id.index]? = some (.variable name sort) ∧ sort.encodable = true := by
  simp only [encoded, Bool.and_eq_true, decide_eq_true_eq] at h
  exact ⟨h.1, exists_of_rangesEncodable h.2⟩

/-- What says the same in every script that extends `s`. -/
def lasting (s : Script) : Usage where
  name _ := true
  sort := TermSort.encodable
  binder := s.rangesEncodable
  ref bound id := (bound.contains id || s.precedes 0 id) && s.faithful.ref bound id
  call _ _ := false

theorem termBlock_of_mem {s : Script} {depth : Nat} {ts : List Term} {bs : List Layout.Block}
    (h : s.termBlocks depth ts = .ok bs) : ∀ t ∈ ts, ∃ b, s.termBlock (depth + 1) t = .ok b := by
  induction ts generalizing bs with
  | nil => exact nofun
  | cons t ts ih =>
    rw [termBlocks] at h
    obtain ⟨b, hb, h⟩ := bind_eq_ok.mp h
    obtain ⟨bs, hbs, _⟩ := bind_eq_ok.mp h
    exact List.forall_mem_cons.mpr ⟨⟨b, hb⟩, ih hbs⟩

/-- Every formula of a printed script has been printed. -/
theorem termBlock_of_print {s : Script} {width : Nat} {text : String}
    (h : s.print width = .ok text) : ∀ a ∈ s.assertions, ∃ b, s.termBlock 1 a.formula = .ok b := by
  obtain ⟨bs, hbs, _⟩ := bind_eq_ok.mp h
  obtain ⟨_, _, hbs⟩ := bind_eq_ok.mp hbs
  obtain ⟨_, _, hbs⟩ := bind_eq_ok.mp hbs
  obtain ⟨_, hassertions, _⟩ := bind_eq_ok.mp hbs
  intro a ha
  obtain ⟨_, hblocks⟩ := forall_of_mapM hassertions a ha
  obtain ⟨b, hb, _⟩ := bind_eq_ok.mp hblocks
  exact ⟨b, hb⟩

/-! ## Faithful names -/

theorem isLiteral_of_head {name : String} (h : name.toList.head? = some '_') :
    isLiteral name = false := by
  simp only [isLiteral, Bool.or_eq_false_iff, decide_eq_false_iff_not]
  refine ⟨fun hname => ?_, fun hname => ?_⟩
  · rw [hname] at h
    revert h
    decide
  · rw [hname] at h
    revert h
    decide

/-- A name leads back to a variable that no other bound one has the name of, and
to a declaration whose name no bound variable has. -/
theorem faithful_ref {s : Script} {bound : List DeclId} {id : DeclId}
    (hliteral : isLiteral (s.nameOf id) = false)
    (hbound : ∀ b ∈ bound, s.nameOf b = s.nameOf id → b = id)
    (hlookup : id ∈ bound ∨ s.lookup (s.nameOf id) = some id) :
    s.faithful.ref bound id = true := by
  simp only [faithful, hliteral, Bool.not_false, Bool.true_and, decide_eq_true_eq]
  unfold resolve
  split
  · rename_i b hb
    have hname := List.find?_some hb
    rw [decide_eq_true_eq] at hname
    rw [hbound b (List.mem_of_find?_eq_some hb) hname]
  · rename_i hnone
    refine hlookup.resolve_left fun hid => ?_
    have hne := List.find?_eq_none.mp hnone id hid
    exact hne (decide_eq_true rfl)

end Script

/-- No relation has the name of a truth value or of a variable that is drawn
while the count goes from `start` to `count`. -/
def Relational.Model.AvoidsDrawn (m : Model) (start count : Nat) : Prop :=
  ∀ n ∈ m.relationNames, Script.isLiteral n = false ∧
    ∀ k, start < k → k ≤ count → n ≠ variableName k

namespace Encoding

open Relational Encoder

variable {m : Model} {start : Nat} {p : Progress}

/-! ## Printed terms -/

/-- A grounded term that is printed has no literal but those of sets. -/
theorem Grounded.conforms {s : Script} {depth : Nat} {bound : List DeclId} {t : Term}
    {b : Layout.Block}
    (hs : ∀ {i : Nat} {d : Declaration}, s.arena[i]? = some d → d.encodable = true)
    (h : Grounded s bound t) (hb : s.termBlock depth t = .ok b) :
    t.conforms s.encoded bound = true := by
  induction h generalizing depth b with
  | bound hid => simp [Term.conforms, Script.encoded, hid]
  | declared hid => simp [Term.conforms, Script.encoded, hid]
  | int hn => exact hn
  | bool => rfl
  | @emptySet _ sort hsort =>
    rw [Script.termBlock, Script.setLiteralBlock] at hb
    obtain ⟨hset, _⟩ := checked_eq_ok.mp hb
    rw [Bool.not_eq_true, Bool.not_eq_false'] at hset
    rw [Term.conforms, hset, Bool.true_and]
    exact hsort
  | unary _ ih =>
    rw [Script.termBlock] at hb
    obtain ⟨_, ha, _⟩ := bind_eq_ok.mp hb
    rw [Term.conforms]
    exact ih ha
  | binary _ _ hop iha ihb =>
    rw [Script.termBlock, if_neg hop] at hb
    obtain ⟨_, ha, hb⟩ := bind_eq_ok.mp hb
    obtain ⟨_, hb, _⟩ := bind_eq_ok.mp hb
    rw [Term.conforms, if_neg hop, iha ha, ihb hb]
    rfl
  | first _ ih =>
    rw [Term.select, Script.termBlock, if_pos rfl] at hb
    obtain ⟨_, _, hb⟩ := bind_eq_ok.mp hb
    obtain ⟨_, ha, _⟩ := bind_eq_ok.mp hb
    rw [Term.select, Term.conforms, if_pos rfl, ih ha]
    rfl
  | nary hlen _ ih =>
    rw [Script.termBlock] at hb
    obtain ⟨_, hb⟩ := checked_eq_ok.mp hb
    obtain ⟨bs, hbs, _⟩ := bind_eq_ok.mp hb
    rw [Term.conforms, decide_eq_true hlen, Bool.true_and, Term.conformsAll_iff]
    intro a ha
    obtain ⟨b, hb⟩ := Script.termBlock_of_mem hbs a ha
    exact ih a ha hb
  | quantified hne hvars _ ih =>
    rw [Script.termBlock] at hb
    obtain ⟨_, hb⟩ := checked_eq_ok.mp hb
    obtain ⟨_, _, hb⟩ := bind_eq_ok.mp hb
    obtain ⟨_, hbody, _⟩ := bind_eq_ok.mp hb
    rw [Term.conforms, ih hbody, Bool.and_true]
    simp only [Bool.and_eq_true, Bool.not_eq_true',
      List.isEmpty_eq_false_iff, List.all_eq_true]
    refine ⟨hne, fun x hx => ?_⟩
    obtain ⟨hle, name, sort, hd⟩ := hvars x hx
    simp only [Script.encoded, Script.rangesEncodable, decide_eq_true hle, hd, Bool.true_and]
    exact hs hd
  | @value _ w _ hw _ ih =>
    rw [IntSort.valueOf, Script.termBlock] at hb
    obtain ⟨_, _, hb⟩ := bind_eq_ok.mp hb
    rw [if_neg (by simp)] at hb
    obtain ⟨bs, hbs, _⟩ := bind_eq_ok.mp hb
    obtain ⟨b, hb⟩ := Script.termBlock_of_mem hbs _ (List.mem_singleton.mpr rfl)
    have hcall : ∀ a, s.encoded.call w.value [a] = true := fun a => by
      simpa [Script.encoded] using ⟨w, hw, rfl⟩
    rw [IntSort.valueOf, Term.conforms, hcall, Term.conformsAll, ih hb, Term.conformsAll]
    rfl

/-! ## Texts that can be read -/

theorem Sound.declaresSort (hp : Sound m start p) :
    p.script.declaresSort = builtinScript.declaresSort := by
  funext n
  rw [Script.declaresSort, Script.declaresSort, Script.sortDeclaration?, hp.sorts]
  rfl

/-- The name of a variable in scope or of a function or constant can be read. -/
theorem Sound.legible_ref (hp : Sound m start p) {limit : Nat} {bound : List DeclId} {id : DeclId}
    (h : (bound.contains id || p.script.precedes 0 id) = true) :
    (p.script.legible limit).ref bound id = true := by
  simp only [Script.legible, Bool.or_eq_true, List.contains_iff_mem, List.any_eq_true,
    decide_eq_true_eq, Option.any_eq_true] at h ⊢
  rcases h with hid | hid
  · exact .inl (.inr ⟨id, hid, rfl⟩)
  · obtain ⟨d, hd, hkind⟩ := Script.exists_of_precedes hid
    refine .inr ⟨id, hp.coherent.lookup.mpr ⟨d, hd, (Script.nameOf_eq hd).symm, hkind⟩, ?_⟩
    exact (Script.Extends.refl _).precedes (Nat.zero_le _) hid

theorem Sound.encoded_legible (hp : Sound m start p) (limit : Nat) :
    p.script.encoded.Implies (p.script.legible limit) p.script.encoded.Binds where
  name _ := rfl
  sort h := by
    simp only [Script.legible, hp.declaresSort]
    exact h
  binder h := by
    obtain ⟨_, name, sort, hd, hsort⟩ := Script.binder_encoded h
    simp only [Script.legible, hd, hp.declaresSort]
    exact hsort
  ref hbound h := by
    rw [← hbound.1]
    exact hp.legible_ref h
  call := by
    intro f args h
    simp only [Script.encoded, Bool.and_eq_true, Bool.not_eq_true', List.isEmpty_eq_false_iff,
      List.contains_iff_mem] at h
    obtain ⟨w, hw, rfl⟩ := List.mem_map.mp h.2
    obtain ⟨id, hid⟩ := hasFunction_intSort hw
    have hlookup := hp.builtin.lookup hid.1
    have hprecedes := hp.builtin.precedes (Nat.zero_le limit) hid.precedes
    have hname : w.value ≠ "-" ∧ w.value ≠ "as" ∧ w.value ≠ "ite" ∧
        Quantifier.ofSpelling? w.value = none ∧ isOperator w.value = false := by
      simp only [intSorts, List.mem_cons, List.not_mem_nil, or_false] at hw
      rcases hw with rfl | rfl | rfl <;> decide
    have hshapes : args.map Term.shape ≠ [] := by simpa using h.1
    have happlied := Script.Reader.applied_operator hshapes hname.1 hname.2.1 hname.2.2.1
      hname.2.2.2.1
    simp [Script.legible, happlied, hname.2.2.2.2, hlookup, hprecedes]
  closed := Usage.binds_nil _
  enter := Usage.Binds.enter

/-! ## Names that lead back -/

/-- The name of a function or constant is neither a truth value's nor that of a
variable that was drawn. -/
theorem Sound.name_of_precedes (hp : Sound m start p)
    (hm : m.AvoidsDrawn start p.names.variableCount) {id : DeclId}
    (hid : p.script.precedes 0 id = true) : Script.isLiteral (p.script.nameOf id) = false ∧
      ∀ k, start < k → k ≤ p.names.variableCount → p.script.nameOf id ≠ variableName k := by
  obtain ⟨d, hd, hkind⟩ := Script.exists_of_precedes hid
  rw [Script.nameOf_eq hd]
  by_cases hlt : id.index < builtinScript.arena.size
  -- built-in names do not begin like generated ones
  · have hbuiltin : ∀ e ∈ builtinScript.arena.toList, e.kind ≠ .variable →
        Script.isLiteral e.name = false ∧ e.name.toList.head? ≠ some '_' := by decide
    have he := Array.getElem?_eq_getElem hlt
    have hde := hp.builtin.decl he
    rw [hd, Option.some.injEq] at hde
    obtain ⟨hliteral, hhead⟩ := hbuiltin d
      (Array.mem_toList_iff.mpr (Array.mem_of_getElem? (hde ▸ he))) hkind
    refine ⟨hliteral, fun k _ _ hname => hhead ?_⟩
    rw [hname, NameSupply.toList_variableName]
    rfl
  · have hfollows := hp.follows (Nat.not_lt.mp hlt) hd
    rcases d with ⟨name, inputs, output⟩ | ⟨name, sort⟩ | _ | _
    · rcases hfollows with hname | ⟨k, rfl⟩
      · exact hm name hname
      · refine ⟨Script.isLiteral_of_head ?_, fun j _ _ => NameSupply.setName_ne_variableName k j⟩
        rw [Declaration.name, NameSupply.toList_setName]
        rfl
    · obtain ⟨k, rfl⟩ := hfollows
      refine ⟨Script.isLiteral_of_head ?_, fun j _ _ => NameSupply.elementName_ne_variableName k j⟩
      rw [Declaration.name, NameSupply.toList_elementName]
      rfl
    · exact hfollows.elim
    · exact absurd rfl hkind

theorem Sound.encoded_faithful (hp : Sound m start p)
    (hm : m.AvoidsDrawn start p.names.variableCount) :
    p.script.encoded.Implies p.script.faithful p.script.encoded.Binds where
  name _ := rfl
  sort _ := rfl
  binder _ := rfl
  ref := by
    intro bound bound' id hbound h
    obtain ⟨rfl, hbinders⟩ := hbound
    have hdrawn : ∀ b ∈ bound, ∃ k, start < k ∧ k ≤ p.names.variableCount ∧
        p.script.nameOf b = variableName k := fun b hb => by
      obtain ⟨hle, name, sort, hd, _⟩ := Script.binder_encoded (hbinders b hb)
      rw [Script.nameOf_eq hd]
      exact hp.follows hle hd
    simp only [Script.encoded, Bool.or_eq_true, List.contains_iff_mem] at h
    by_cases hid : id ∈ bound
    -- no two variables that were drawn have one name
    · obtain ⟨k, _, _, hname⟩ := hdrawn id hid
      refine Script.faithful_ref (Script.isLiteral_of_head ?_) (fun b hb hsame => ?_) (.inl hid)
      · rw [hname, NameSupply.toList_variableName]
        rfl
      · obtain ⟨hle, name, sort, hd, _⟩ := Script.binder_encoded (hbinders b hb)
        obtain ⟨hle', name', sort', hd', _⟩ := Script.binder_encoded (hbinders id hid)
        rw [Script.nameOf_eq hd, Script.nameOf_eq hd'] at hsame
        obtain rfl : name = name' := hsame
        exact congrArg DeclId.mk (hp.distinct hle hle' hd hd')
    -- and no function or constant has the name of one
    · have hprecedes := h.resolve_left hid
      obtain ⟨hliteral, hname⟩ := hp.name_of_precedes hm hprecedes
      obtain ⟨d, hd, hkind⟩ := Script.exists_of_precedes hprecedes
      refine Script.faithful_ref hliteral (fun b hb hsame => ?_)
        (.inr (hp.coherent.lookup.mpr ⟨d, hd, (Script.nameOf_eq hd).symm, hkind⟩))
      obtain ⟨k, hlo, hhi, hk⟩ := hdrawn b hb
      exact absurd (hsame.symm.trans hk) (hname k hlo hhi)
  call _ := rfl
  closed := Usage.binds_nil _
  enter := Usage.Binds.enter

/-! ## The built-in assertions -/

theorem conforms_lasting {a : Assertion} (ha : a ∈ builtinScript.assertions) :
    a.formula.conforms builtinScript.lasting [] = true := by
  have hall : ∀ a ∈ builtinScript.assertions,
      a.formula.conforms builtinScript.lasting [] = true := by decide +kernel
  exact hall a ha

theorem Sound.lasting_legible (hp : Sound m start p) (limit : Nat) :
    builtinScript.lasting.Implies (p.script.legible limit) builtinScript.lasting.Binds where
  name _ := rfl
  sort h := by
    simp only [Script.legible, hp.declaresSort]
    exact h
  binder h := by
    obtain ⟨name, sort, hd, hsort⟩ := Script.exists_of_rangesEncodable h
    simp only [Script.legible, hp.builtin.decl hd, hp.declaresSort]
    exact hsort
  ref := by
    intro bound bound' id hbound h
    rw [← hbound.1]
    simp only [Script.lasting, Bool.and_eq_true, Bool.or_eq_true] at h
    rw [hp.legible_ref]
    exact Bool.or_eq_true_iff.mpr (h.1.imp_right (hp.builtin.precedes (Nat.zero_le 0)))
  call h := nomatch h
  closed := Usage.binds_nil _
  enter := Usage.Binds.enter

theorem Sound.lasting_faithful (hp : Sound m start p) :
    builtinScript.lasting.Implies p.script.faithful builtinScript.lasting.Binds where
  name _ := rfl
  sort _ := rfl
  binder _ := rfl
  ref := by
    intro bound bound' id hbound h
    obtain ⟨rfl, hbinders⟩ := hbound
    have hdeclared : ∀ b ∈ bound, ∃ d, builtinScript.arena[b.index]? = some d := fun b hb => by
      obtain ⟨_, _, hd, _⟩ := Script.exists_of_rangesEncodable (hbinders b hb)
      exact ⟨_, hd⟩
    simp only [Script.lasting, Script.faithful, Bool.and_eq_true, Bool.or_eq_true, List.contains_iff_mem,
      decide_eq_true_eq] at h ⊢
    obtain ⟨hid, hliteral, hresolve⟩ := h
    obtain ⟨d, hd⟩ : ∃ d, builtinScript.arena[id.index]? = some d :=
      hid.elim (hdeclared id) fun hid => (Script.exists_of_precedes hid).imp fun _ h => h.1
    rw [hp.builtin.nameOf hd]
    exact ⟨hliteral, hp.builtin.resolve hdeclared hresolve⟩
  call _ := rfl
  closed := Usage.binds_nil _
  enter := Usage.Binds.enter

/-! ## Scripts of models -/

theorem Sound.assertions_conform (hp : Sound m start p) {width : Nat} {text : String} {u : Usage}
    (hprint : p.script.print width = .ok text)
    (hlasting : builtinScript.lasting.Implies u builtinScript.lasting.Binds)
    (hencoded : p.script.encoded.Implies u p.script.encoded.Binds) :
    ∀ a ∈ p.script.assertions, a.formula.conforms u [] = true := by
  intro a ha
  rcases hp.assertions a ha with hbuiltin | hgrounded
  · exact Term.conforms_mono hlasting hlasting.closed (conforms_lasting hbuiltin)
  · obtain ⟨b, hb⟩ := Script.termBlock_of_print hprint a ha
    exact Term.conforms_mono hencoded hencoded.closed (hgrounded.conforms hp.encodable hb)

theorem Sound.conforms (hp : Sound m start p) {u : Nat → Usage}
    (hname : ∀ i n, (u i).name n = true)
    (hsort : ∀ i {sort : TermSort}, sort.encodable = true → (u i).sort sort = true)
    (hassertions : ∀ a ∈ p.script.assertions,
      a.formula.conforms (u p.script.arena.size) [] = true) :
    p.script.conforms u (fun _ => true) = true := by
  refine Script.conforms_iff.mpr ⟨fun d hd => ⟨hname _ _, ?_⟩, fun id hid => ?_,
    fun a ha => ⟨fun _ _ => rfl, hassertions a ha⟩⟩
  · have harity : ∀ d ∈ builtinScript.sorts, Text.fitsUnsigned32 d.arity = true := by decide
    exact harity d (hp.sorts ▸ hd)
  · obtain ⟨d, hd, hkind⟩ := (Script.mem_topLevel hp.coherent).mp hid
    refine ⟨d, hd, ?_⟩
    have hencodable := hp.encodable hd
    rcases d with ⟨name, inputs, output⟩ | ⟨name, sort⟩ | _ | _
    · simp only [Declaration.encodable, Bool.and_eq_true, List.all_eq_true] at hencodable
      simp only [Declaration.conforms, Bool.and_eq_true, List.all_eq_true]
      exact ⟨⟨hname _ _, fun i hi => hsort _ (hencodable.1 i hi)⟩, hsort _ hencodable.2⟩
    · simp only [Declaration.conforms, Bool.and_eq_true]
      exact ⟨hname _ _, hsort _ hencodable⟩
    · cases hencodable
    · exact absurd rfl hkind

theorem Sound.conforms_legible (hp : Sound m start p) {width : Nat} {text : String}
    (hprint : p.script.print width = .ok text) :
    p.script.conforms p.script.legible (fun _ => true) = true :=
  hp.conforms (fun _ _ => rfl) (fun i _ => (hp.encoded_legible i).sort)
    (hp.assertions_conform hprint (hp.lasting_legible _) (hp.encoded_legible _))

theorem Sound.conforms_faithful (hp : Sound m start p)
    (hm : m.AvoidsDrawn start p.names.variableCount) {width : Nat} {text : String}
    (hprint : p.script.print width = .ok text) :
    p.script.conforms (fun _ => p.script.faithful) (fun _ => true) = true :=
  hp.conforms (fun _ _ => rfl) (fun _ _ _ => rfl)
    (hp.assertions_conform hprint hp.lasting_faithful (hp.encoded_faithful hm))

theorem compile_eq_ok {settings : Settings} {names names' : NameSupply} {text : String}
    (h : m.compile settings names = (.ok text, names')) :
    ∃ s, m.encode settings names = (.ok s, names') ∧ s.print settings.width = .ok text := by
  simp only [Model.compile] at h
  generalize hencode : m.encode settings names = result at h
  obtain ⟨_ | s, names''⟩ := result
  · cases h
  · rw [Prod.mk.injEq] at h
    obtain ⟨htext, rfl⟩ := h
    exact ⟨s, rfl, Script.Reader.mapError_eq_ok.mp htext⟩

theorem compile_of_isOk {settings : Settings} {names : NameSupply}
    (h : (m.compile settings names).1.isOk) :
    ∃ text names', m.compile settings names = (.ok text, names') := by
  generalize m.compile settings names = result at h
  obtain ⟨_ | text, names'⟩ := result
  · cases h
  · exact ⟨text, names', rfl⟩

theorem sound_of_encode {settings : Settings} {names names' : NameSupply} {s : Script}
    (hfits : m.LiteralsFit) (h : m.encode settings names = (.ok s, names')) :
    Sound m (if settings.resetNames then NameSupply.reset else names).variableCount ⟨s, names'⟩ := by
  obtain ⟨u, hrun⟩ := returns_of_encode h
  obtain ⟨v, rfl, hsettled⟩ := settled_encodeModel hfits hrun
  exact hsettled.sound

/-- Declarations other than definitions correspond only to themselves. -/
theorem Sound.declarations_eq (hp : Sound m start p) {t : Script} {c : Correspondence}
    {ids ids' : List DeclId} (h : List.Forall₂ (Script.Agree c p.script t) ids ids') :
    ids'.map (t.arena[·.index]?) = ids.map (p.script.arena[·.index]?) := by
  induction h with
  | nil => rfl
  | cons hagree _ ih =>
    obtain ⟨d, e, hd, he, hde⟩ := hagree
    have hencodable := hp.encodable hd
    rw [List.map_cons, List.map_cons, ih, hd, he]
    rcases d with ⟨name, inputs, output⟩ | ⟨name, sort⟩ | _ | _
    · rw [show e = _ from hde]
    · rw [show e = _ from hde]
    · cases hencodable
    · exact hde.elim

theorem Sound.definitions_eq_nil (hp : Sound m start p) : p.script.definitions = [] := by
  rw [hp.coherent.definitions, List.eq_nil_iff_forall_not_mem]
  intro id hid
  obtain ⟨d, hd, hkind⟩ := Script.mem_entries.mp hid
  have hencodable := hp.encodable hd
  cases d <;> cases hkind
  cases hencodable

/-- Every text that a model is compiled to is read back with the same sorts,
functions and constants, without definitions and with as many assertions. The
names of assertions are comments, and a sort has the cardinality that the last
of them reports. Where they are trimmed and report none, what is read has the
same text. -/
theorem read_compile (hfits : m.LiteralsFit) {settings : Settings} {names names' : NameSupply}
    {text : String} (h : m.compile settings names = (.ok text, names')) :
    ∃ s t, m.encode settings names = (.ok s, names') ∧ Script.read .script text = .ok t ∧
      t.sorts = s.sorts.map
        (fun d => { d with cardinality := (Script.reports s.assertions).lookup d.name }) ∧
      t.functions.map (t.arena[·.index]?) = s.functions.map (s.arena[·.index]?) ∧
      t.constants.map (t.arena[·.index]?) = s.constants.map (s.arena[·.index]?) ∧
      t.definitions = [] ∧ t.assertions.length = s.assertions.length ∧
      ((∀ a ∈ s.assertions, ∀ n, a.name = some n →
          Text.trim n.toList = n.toList ∧ Script.reportsCardinality n = false) →
        t.sorts = s.sorts ∧ t.print settings.width = .ok text) := by
  obtain ⟨s, hs, hprint⟩ := compile_eq_ok h
  have hp := sound_of_encode hfits hs
  obtain ⟨t, ht, htc, hcorr, _, hnames, hsorts⟩ :=
    Script.read_of_legible hp.coherent (hp.conforms_legible hprint) hprint
  have hdefinitions := hcorr.definitions
  rw [hp.definitions_eq_nil, List.forall₂_nil_left_iff] at hdefinitions
  refine ⟨s, t, hs, ht, hsorts, hp.declarations_eq hcorr.functions,
    hp.declarations_eq hcorr.constants, hdefinitions, hcorr.assertions.length_eq.symm,
    fun hlabels => ?_⟩
  have hheard : ∀ a ∈ s.assertions, ∀ n, a.name = some n → Script.heard n = .comment n :=
    fun a ha n hn => Script.heard_eq_comment (hlabels a ha n hn).1 (hlabels a ha n hn).2
  rw [Script.bind_readName_of_heard hheard] at hnames
  rw [Script.reports_of_heard hheard] at hsorts
  refine ⟨?_, Script.print_of_byName htc hcorr hnames hprint⟩
  rw [hsorts, show s.sorts = builtinScript.sorts from hp.sorts]
  rfl

/-- One signature with integers in a field whose label is no plain symbol, and
facts of which one is no formula. -/
def labelledModel (label : String) : Model where
  signatures := [⟨label, .top, [.one], [⟨"a b", [.int], .set⟩]⟩]
  facts := [⟨"none below", .quantified .no [⟨["x"], .sig ⟨0⟩⟩]
      (.binary .lt (.binary .join (.var "x") (.field ⟨⟨0⟩, 0⟩)) (.int (-5)))⟩,
    ⟨"no formula", .unary .not (.sig ⟨0⟩)⟩]

theorem literalsFit_labelledModel (label : String) : (labelledModel label).LiteralsFit := by
  intro fact hfact
  simp only [labelledModel, List.mem_cons, List.not_mem_nil, or_false] at hfact
  rcases hfact with rfl | rfl <;> decide

/-- The text reads back although the label is the name of a variable that is
drawn. -/
theorem read_compile_labelled : ∃ text names s t,
    (labelledModel "_x1").compile {} {} = (.ok text, names) ∧
      (labelledModel "_x1").encode {} {} = (.ok s, names) ∧ Script.read .script text = .ok t ∧
      t.sorts = s.sorts ∧ t.assertions.length = s.assertions.length ∧
      t.print Script.defaultWidth = .ok text := by
  obtain ⟨text, names, h⟩ := compile_of_isOk
    (show ((labelledModel "_x1").compile {} {}).1.isOk by decide +kernel)
  obtain ⟨s, t, hs, ht, _, _, _, _, hlength, hsame⟩ :=
    read_compile (literalsFit_labelledModel "_x1") h
  have hlabels : ((labelledModel "_x1").encode {} {}).1.toOption.all (fun s =>
      s.assertions.all fun a => a.name.all fun n =>
        decide (Text.trim n.toList = n.toList) && !Script.reportsCardinality n) = true := by
    decide +kernel
  simp only [hs, Except.toOption, Option.all_some, List.all_eq_true, Option.all_eq_true,
    Bool.and_eq_true, decide_eq_true_eq, Bool.not_eq_true'] at hlabels
  obtain ⟨hsorts, hprint⟩ := hsame hlabels
  exact ⟨text, names, s, t, h, hs, ht, hsorts, hlength, hprint⟩

/-- Where no relation has the name of a truth value or of a variable that was
drawn, every name in a compiled text leads back to what it is the name of. -/
theorem compile_alphaEquivalent (hfits : m.LiteralsFit) {settings : Settings}
    {names names' : NameSupply} {text : String}
    (h : m.compile settings names = (.ok text, names'))
    (hm : m.AvoidsDrawn (if settings.resetNames then NameSupply.reset else names).variableCount
      names'.variableCount) :
    ∃ s t, m.encode settings names = (.ok s, names') ∧ Script.read .script text = .ok t ∧
      s.conforms (fun _ => s.faithful) (fun _ => true) = true ∧ s.AlphaEquivalent t := by
  obtain ⟨s, hs, hprint⟩ := compile_eq_ok h
  have hp := sound_of_encode hfits hs
  obtain ⟨t, ht, htc, hcorr, _⟩ :=
    Script.read_of_legible hp.coherent (hp.conforms_legible hprint) hprint
  have hfaithful := hp.conforms_faithful hm hprint
  exact ⟨s, t, hs, ht, hfaithful, Script.alphaEquivalent_of_byName htc hfaithful hcorr⟩

/-- A label that looks like a variable is no harm where fewer variables are
drawn. -/
theorem compile_alphaEquivalent_labelled : ∃ text names s t,
    (labelledModel "_x9").compile {} {} = (.ok text, names) ∧
      (labelledModel "_x9").encode {} {} = (.ok s, names) ∧ Script.read .script text = .ok t ∧
      s.conforms (fun _ => s.faithful) (fun _ => true) = true ∧ s.AlphaEquivalent t := by
  obtain ⟨text, names, h⟩ := compile_of_isOk
    (show ((labelledModel "_x9").compile {} {}).1.isOk by decide +kernel)
  have hcount : ((labelledModel "_x9").compile {} {}).2.variableCount ≤ 6 := by decide +kernel
  rw [h] at hcount
  change names.variableCount ≤ 6 at hcount
  have havoids : (labelledModel "_x9").AvoidsDrawn 0 names.variableCount := by
    have hnames : ∀ n ∈ (labelledModel "_x9").relationNames,
        Script.isLiteral n = false ∧ ∀ k < 7, n ≠ variableName k := by decide +kernel
    intro n hn
    obtain ⟨hliteral, hne⟩ := hnames n hn
    exact ⟨hliteral, fun k _ hk => hne k (by omega)⟩
  obtain ⟨s, t, hspec⟩ := compile_alphaEquivalent (literalsFit_labelledModel "_x9") h havoids
  exact ⟨text, names, s, t, h, hspec⟩

-- The relation `_x1` is captured by the variable that says that it has one atom.
example : ((labelledModel "_x1").encode {} {}).1.toOption.all
    (fun s => s.conforms (fun _ => s.faithful) fun _ => true) = false := by decide +kernel

end Encoding

end TupleLogic
