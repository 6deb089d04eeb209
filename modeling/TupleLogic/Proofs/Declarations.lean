import TupleLogic.Proofs.Interpretation
import TupleLogic.Proofs.Returns

/-! The declarations of a model's vocabulary. Relations are declared one after
the other at consecutive positions, so that different signatures and fields
have different relations, and every declaration that is no variable belongs to
the vocabulary or gives the tuples of an integer sort. -/

namespace TupleLogic.Encoding

open Relational Encoder

variable {p q : Progress}

/-! ## One declaration -/

section Declarations

variable {s t u : Script}

/-- The declaration was added, at the next position and under its name. -/
structure Declares (d : Declaration) (s : Script) (id : DeclId) (t : Script) : Prop where
  extension : s.Extends t
  assertions : t.assertions = s.assertions
  position : id = s.nextId
  size : t.arena.size = s.arena.size + 1
  decl : t.arena[id.index]? = some d
  lookup : t.lookup d.name = some id

theorem declares_register {d : Declaration} (hfree : s.lookup d.name = none)
    (harena : t.arena = s.arena.push d) (hindex : t.index = (d.name, s.nextId) :: s.index)
    (hassert : t.assertions = s.assertions) : Declares d s s.nextId t where
  extension := by
    have h := Script.extends_register hfree
    refine ⟨fun hd => ?_, fun hl => ?_⟩
    · rw [harena]
      exact h.decl hd
    · rw [Script.lookup, hindex]
      exact h.lookup hl
  assertions := hassert
  position := rfl
  size := by rw [harena, Array.size_push]
  decl := by
    rw [harena]
    exact Array.getElem?_push_size
  lookup := by rw [Script.lookup, hindex, List.lookup_cons_self]

/-- The progress after a function is declared. -/
def Progress.withFunction (p : Progress) (name : String) (inputs : List TermSort)
    (output : TermSort) : Progress :=
  ⟨{ p.script.register (.function name inputs output) with
      functions := p.script.functions ++ [p.script.nextId] }, p.names⟩

theorem returns_declareFunction {name : String} {inputs : List TermSort} {output : TermSort}
    {id : DeclId} (h : Returns (edit (.declareFunction name inputs output)) p id q) :
    p.script.lookup name = none ∧ id = p.script.nextId ∧ q = p.withFunction name inputs output := by
  obtain ⟨s, hs, rfl⟩ := returns_edit.mp h
  obtain ⟨hfree, rfl, rfl⟩ := Script.declareFunction_eq_ok.mp hs
  exact ⟨hfree, rfl, rfl⟩

theorem declareFunction_returns {name : String} {inputs : List TermSort} {output : TermSort}
    {id : DeclId} (h : Returns (edit (.declareFunction name inputs output)) p id q) :
    Declares (.function name inputs output) p.script id q.script := by
  obtain ⟨hfree, rfl, rfl⟩ := returns_declareFunction h
  exact declares_register hfree rfl rfl rfl

theorem declareConstant_returns {name : String} {sort : TermSort} {id : DeclId}
    (h : Returns (edit (.declareConstant name sort)) p id q) :
    Declares (.constant name sort) p.script id q.script := by
  obtain ⟨s, hs, rfl⟩ := returns_edit.mp h
  obtain ⟨hfree, rfl, rfl⟩ := Script.declareConstant_eq_ok.mp hs
  exact declares_register hfree rfl rfl rfl

/-! ## Many declarations -/

/-- The `n` positions from `lo` on. -/
def positions (lo n : Nat) : List DeclId := (List.range' lo n).map DeclId.mk

theorem mem_positions {lo n : Nat} {id : DeclId} :
    id ∈ positions lo n ↔ lo ≤ id.index ∧ id.index < lo + n := by
  rw [positions, List.mem_map]
  constructor
  · rintro ⟨i, hi, rfl⟩
    exact List.mem_range'_1.mp hi
  · intro h
    exact ⟨id.index, List.mem_range'_1.mpr h, rfl⟩

theorem positions_add (lo m n : Nat) :
    positions lo (m + n) = positions lo m ++ positions (lo + m) n := by
  rw [positions, ← List.range'_append_1, List.map_append]
  rfl

theorem nodup_positions (lo n : Nat) : (positions lo n).Nodup := by
  refine List.Nodup.map (fun i j h => DeclId.mk.inj h) List.nodup_range'

/-- Declarations that were added one after the other. -/
structure DeclaresAll (ds : List Declaration) (s : Script) (ids : List DeclId) (t : Script) :
    Prop where
  extension : s.Extends t
  assertions : t.assertions = s.assertions
  positions : ids = positions s.arena.size ds.length
  size : t.arena.size = s.arena.size + ds.length
  decls : List.Forall₂ (fun d id => t.arena[id.index]? = some d ∧ t.lookup d.name = some id) ds ids

theorem declaresAll_nil : DeclaresAll [] s [] s :=
  ⟨.refl _, rfl, rfl, rfl, .nil⟩

theorem DeclaresAll.append {ds es : List Declaration} {ids jds : List DeclId}
    (h : DeclaresAll ds s ids t) (h' : DeclaresAll es t jds u) :
    DeclaresAll (ds ++ es) s (ids ++ jds) u where
  extension := h.extension.trans h'.extension
  assertions := h'.assertions.trans h.assertions
  positions := by rw [h.positions, h'.positions, h.size, List.length_append, positions_add]
  size := by rw [h'.size, h.size, List.length_append, Nat.add_assoc]
  decls := List.rel_append (h.decls.imp fun _ _ hd =>
    ⟨h'.extension.decl hd.1, h'.extension.lookup hd.2⟩) h'.decls

theorem Declares.all {d : Declaration} {id : DeclId} (h : Declares d s id t) :
    DeclaresAll [d] s [id] t :=
  ⟨h.extension, h.assertions, by rw [h.position]; rfl, h.size, .cons ⟨h.decl, h.lookup⟩ .nil⟩

theorem declaresAll_mapM {β : Type} {g : β → Encoder DeclId} {decl : β → Declaration} {xs : List β}
    {ids : List DeclId}
    (hg : ∀ {x p id q}, Returns (g x) p id q → Declares (decl x) p.script id q.script)
    (h : Returns (xs.mapM g) p ids q) : DeclaresAll (xs.map decl) p.script ids q.script := by
  induction xs generalizing p ids with
  | nil =>
    obtain ⟨rfl, rfl⟩ := returns_mapM_nil.mp h
    exact declaresAll_nil
  | cons x xs ih =>
    obtain ⟨id, s, ids', hx, hxs, rfl⟩ := returns_mapM_cons.mp h
    exact (hg hx).all.append (ih hxs)

end Declarations

/-! ## The built-in declarations -/

/-- The script with the sorts, functions and relations that every encoding has. -/
def builtinScript : Script where
  sorts := [⟨"Atom", 0, none⟩, ⟨"UnaryIntTup", 0, none⟩, ⟨"BinaryIntTup", 0, none⟩,
    ⟨"TernaryIntTup", 0, none⟩]
  arena := #[.function "value_of_unaryIntTup" [unaryIntSort] (.tuple [.int]),
    .function "value_of_binaryIntTup" [binaryIntSort] (.tuple [.int, .int]),
    .function "value_of_ternaryIntTup" [ternaryIntSort] (.tuple [.int, .int, .int]),
    .function "atomUniv" [] (relationSort [.atom]), .function "atomNone" [] (relationSort [.atom]),
    .function "atomIden" [] (relationSort [.atom, .atom]), .variable "x" .atom, .variable "y" .atom]
  functions := positions 0 6
  index := [("atomIden", ⟨5⟩), ("atomNone", ⟨4⟩), ("atomUniv", ⟨3⟩),
    ("value_of_ternaryIntTup", ⟨2⟩), ("value_of_binaryIntTup", ⟨1⟩), ("value_of_unaryIntTup", ⟨0⟩)]
  assertions := [⟨none, .equals (.ref ⟨4⟩) (.emptySet unaryRelation)⟩,
    ⟨none, .equals (.ref ⟨3⟩) (.fullSet unaryRelation)⟩,
    ⟨none, .quantified .all [⟨6⟩, ⟨7⟩] (.equals (.member (.nary .tuple [.ref ⟨6⟩, .ref ⟨7⟩])
      (.ref ⟨5⟩)) (.equals (.ref ⟨6⟩) (.ref ⟨7⟩)))⟩]

theorem returns_declareSort {name : String} {u : Unit} (h : Returns (declareSort name) p u q) :
    q = ⟨{ p.script with sorts := p.script.sorts ++ [⟨name, 0, none⟩] }, p.names⟩ := by
  obtain ⟨s, hs, rfl⟩ := returns_edit.mp h
  obtain ⟨_, rfl⟩ := Script.declareSort_eq_ok.mp (congrArg (Except.map Prod.snd) hs)
  rfl

theorem returns_namedVariable {name : String} {sort : TermSort} {id : DeclId} :
    Returns (namedVariable name sort) p id q ↔
      id = p.script.nextId ∧ q = ⟨(p.script.addVariable name sort).2, p.names⟩ := by
  simp only [namedVariable, returns_bind, returns_get, returns_modify, returns_pure]
  constructor
  · rintro ⟨_, _, ⟨rfl, rfl⟩, _, _, rfl, rfl, rfl⟩
    exact ⟨rfl, rfl⟩
  · rintro ⟨rfl, rfl⟩
    exact ⟨_, _, ⟨rfl, rfl⟩, ⟨⟩, _, rfl, rfl, rfl⟩

theorem returns_declareValue {name : String} {input : TermSort} {width : Nat} {u : Unit}
    (h : Returns (declareValue name input (width + 1)) p u q) :
    q = p.withFunction name [input] (.tuple (List.replicate (width + 1) .int)) := by
  simp only [declareValue, returns_bind, returns_liftTerm] at h
  obtain ⟨output, _, ⟨hout, rfl⟩, h⟩ := h
  cases hout
  obtain ⟨_, _, hd, h⟩ := returns_bind.mp h
  obtain ⟨_, rfl⟩ := returns_pure.mp h
  exact (returns_declareFunction hd).2.2

theorem returns_declareBuiltins {names : NameSupply} {ids : DeclId × DeclId × DeclId}
    (h : Returns declareBuiltins ⟨.empty, names⟩ ids q) :
    ids = (⟨3⟩, ⟨4⟩, ⟨5⟩) ∧ q = ⟨builtinScript, names⟩ := by
  unfold declareBuiltins at h
  simp only [returns_bind, returns_liftTerm, returns_assertTerm, returns_namedVariable,
    returns_pure] at h
  obtain ⟨_, _, h₁, _, _, h₂, _, _, h₃, _, _, h₄, _, _, h₅, _, _, h₆, _, _, h₇, _, _, h₈, _, _, h₉,
    _, _, ⟨hsort, rfl⟩, _, _, h₁₀, _, _, rfl, _, _, rfl, _, _, ⟨rfl, rfl⟩, _, _, ⟨rfl, rfl⟩, _, _,
    ⟨hpair, rfl⟩, _, _, ⟨hall, rfl⟩, _, _, rfl, rfl, rfl⟩ := h
  rw [returns_declareSort h₁] at h₂
  rw [returns_declareSort h₂] at h₃
  rw [returns_declareSort h₃] at h₄
  rw [returns_declareSort h₄] at h₅
  rw [returns_declareValue h₅] at h₆
  rw [returns_declareValue h₆] at h₇
  rw [returns_declareValue h₇] at h₈
  obtain ⟨_, rfl, rfl⟩ := returns_declareFunction h₈
  obtain ⟨_, rfl, rfl⟩ := returns_declareFunction h₉
  cases hsort
  obtain ⟨_, rfl, rfl⟩ := returns_declareFunction h₁₀
  cases hpair
  cases hall
  exact ⟨rfl, rfl⟩

theorem declareSort_returns {name : String} (h : p.script.sortDeclaration? name = none) :
    Returns (declareSort name) p ()
      ⟨{ p.script with sorts := p.script.sorts ++ [⟨name, 0, none⟩] }, p.names⟩ := by
  refine returns_edit.mpr ⟨_, ?_, rfl⟩
  rw [Script.Edit.declareSort, Script.Edit.outcome_require_bind, Script.checkSortFree, h]
  rfl

theorem edit_returns {work : Script.Edit α} {a : α} {s : Script}
    (h : work.outcome p.script = .ok (a, s)) : Returns (edit work) p a ⟨s, p.names⟩ :=
  returns_edit.mpr ⟨s, h, rfl⟩

theorem declareValue_returns {name : String} {input output : TermSort} {width : Nat} {id : DeclId}
    {s : Script} (houtput : TermSort.mkTuple (List.replicate width .int) = .ok output)
    (h : p.script.declareFunction name [input] output = .ok (id, s)) :
    Returns (declareValue name input width) p () ⟨s, p.names⟩ := by
  simp only [declareValue, returns_bind, returns_liftTerm]
  refine ⟨_, _, ⟨houtput, rfl⟩, ?_⟩
  exact returns_bind.mpr ⟨id, _, edit_returns h, returns_pure.mpr ⟨rfl, rfl⟩⟩

/-- From the empty script the built-in declarations always succeed. -/
theorem declareBuiltins_returns (names : NameSupply) :
    Returns declareBuiltins ⟨.empty, names⟩ (⟨3⟩, ⟨4⟩, ⟨5⟩) ⟨builtinScript, names⟩ := by
  have hruns : ∃ ids q, Returns declareBuiltins ⟨.empty, names⟩ ids q := by
    simp only [declareBuiltins, returns_bind, returns_liftTerm, returns_assertTerm,
      returns_namedVariable, returns_pure]
    exact ⟨_, _, _, _, declareSort_returns rfl, _, _, declareSort_returns rfl, _, _,
      declareSort_returns rfl, _, _, declareSort_returns rfl, _, _, declareValue_returns rfl rfl,
      _, _, declareValue_returns rfl rfl, _, _, declareValue_returns rfl rfl, _, _,
      edit_returns rfl, _, _, edit_returns rfl, _, _, ⟨rfl, rfl⟩, _, _, edit_returns rfl,
      ⟨⟩, _, rfl, ⟨⟩, _, rfl, _, _, ⟨rfl, rfl⟩, _, _, ⟨rfl, rfl⟩, _, _, ⟨rfl, rfl⟩, _, _,
      ⟨rfl, rfl⟩, ⟨⟩, _, rfl, rfl, rfl⟩
  obtain ⟨ids, q, h⟩ := hruns
  obtain ⟨rfl, rfl⟩ := returns_declareBuiltins h
  exact h

/-! ## The vocabulary of a model -/

def signatureDecl (g : Signature) : Declaration :=
  .function (relationName g.label) [] (relationSort [.atom])

def fieldDecl (g : Signature) (f : Field) : Declaration :=
  .function (fieldName g f) [] (relationSort (fieldTypes f))

theorem declareSignature_returns {g : Signature} {id : DeclId}
    (h : Returns (declareSignature g) p id q) : Declares (signatureDecl g) p.script id q.script :=
  declareFunction_returns h

theorem declareField_returns {g : Signature} {f : Field} {id : DeclId}
    (h : Returns (declareField g f) p id q) : Declares (fieldDecl g f) p.script id q.script := by
  unfold declareField at h
  split at h
  · obtain ⟨_, _, hu, _⟩ := returns_bind.mp h
    exact (not_returns_unsupported hu).elim
  · simp only [returns_bind, returns_liftTerm] at h
    obtain ⟨sort, _, ⟨hsort, rfl⟩, h⟩ := h
    have hsort' : sort = relationSort (fieldTypes f) := by
      rw [fieldColumns_eq] at hsort
      exact (Except.ok.inj hsort).symm
    rw [hsort'] at h
    exact declareFunction_returns h

/-- The fields of all signatures, each signature after those before it. -/
theorem declareFields_returns {gs : List Signature} {idss : List (List DeclId)}
    (h : Returns (gs.mapM fun g => g.fields.mapM (declareField g)) p idss q) :
    DeclaresAll (gs.flatMap fun g => g.fields.map (fieldDecl g)) p.script idss.flatten q.script ∧
      List.Forall₂ (fun g ids => List.Forall₂ (fun f id =>
        q.script.arena[id.index]? = some (fieldDecl g f) ∧
        q.script.lookup (fieldName g f) = some id) g.fields ids) gs idss := by
  induction gs generalizing p idss with
  | nil =>
    obtain ⟨rfl, rfl⟩ := returns_mapM_nil.mp h
    exact ⟨declaresAll_nil, .nil⟩
  | cons g gs ih =>
    obtain ⟨ids, s, idss', hg, hgs, rfl⟩ := returns_mapM_cons.mp h
    have hg := declaresAll_mapM declareField_returns hg
    obtain ⟨hall, hrest⟩ := ih hgs
    refine ⟨hg.append hall, .cons ?_ hrest⟩
    have hdecls := List.forall₂_map_left_iff.mp hg.decls
    exact hdecls.imp fun _ _ hd => ⟨hall.extension.decl hd.1, hall.extension.lookup hd.2⟩

/-- What the declarations of a model's vocabulary leave behind. -/
structure DeclaresVocabulary (m : Model) (v : Vocabulary) (p : Progress) : Prop where
  model : v.model = m
  builtin : builtinScript.Extends p.script
  univ : v.univRelation = ⟨3⟩
  none : v.noneRelation = ⟨4⟩
  iden : v.idenRelation = ⟨5⟩
  assertions : p.script.assertions = builtinScript.assertions
  positions : v.signatures ++ v.fields.flatten =
    positions 8 (v.signatures.length + v.fields.flatten.length)
  size : p.script.arena.size = 8 + (v.signatures.length + v.fields.flatten.length)
  signatures : List.Forall₂ (fun g id => p.script.arena[id.index]? = some (signatureDecl g) ∧
    p.script.lookup (relationName g.label) = some id) m.signatures v.signatures
  fields : List.Forall₂ (fun g ids => List.Forall₂ (fun f id =>
    p.script.arena[id.index]? = some (fieldDecl g f) ∧
    p.script.lookup (fieldName g f) = some id) g.fields ids) m.signatures v.fields

theorem declareVocabulary_returns {m : Model} {names : NameSupply} {v : Vocabulary}
    (h : Returns (declareVocabulary m) ⟨.empty, names⟩ v q) : DeclaresVocabulary m v q := by
  simp only [declareVocabulary, returns_bind, returns_pure] at h
  obtain ⟨_, _, hb, sigs, s, hsigs, fields, _, hfields, rfl, rfl⟩ := h
  obtain ⟨rfl, rfl⟩ := returns_declareBuiltins hb
  have hsigs := declaresAll_mapM declareSignature_returns hsigs
  obtain ⟨hfields, hdecls⟩ := declareFields_returns hfields
  have hall := hsigs.append hfields
  have hlen := hall.decls.length_eq
  have hsize : builtinScript.arena.size = 8 := rfl
  refine ⟨rfl, hall.extension, rfl, rfl, rfl, hall.assertions, ?_, ?_, ?_, hdecls⟩
  · have hpos := hall.positions
    rw [hlen, hsize, List.length_append] at hpos
    exact hpos
  · rw [hall.size, hlen, hsize, List.length_append]
  · refine (List.forall₂_map_left_iff.mp hsigs.decls).imp fun _ _ hd => ?_
    exact ⟨hfields.extension.decl hd.1, hfields.extension.lookup hd.2⟩

theorem forall₂_getElem?_right {α β : Type} {R : α → β → Prop} {xs : List α} {ys : List β}
    (h : List.Forall₂ R xs ys) {i : Nat} {y : β} (hy : ys[i]? = some y) :
    ∃ x, xs[i]? = some x ∧ R x y := by
  induction h generalizing i with
  | nil => simp at hy
  | @cons x _ _ _ hxy _ ih =>
    cases i with
    | zero =>
      rw [List.getElem?_cons_zero, Option.some.injEq] at hy
      exact ⟨x, rfl, hy ▸ hxy⟩
    | succ i => exact ih hy

theorem forall₂_getElem?_left {α β : Type} {R : α → β → Prop} {xs : List α} {ys : List β}
    (h : List.Forall₂ R xs ys) {i : Nat} {x : α} (hx : xs[i]? = some x) :
    ∃ y, ys[i]? = some y ∧ R x y :=
  forall₂_getElem?_right h.flip hx

theorem hasFunction_builtin : HasFunction builtinScript "atomUniv" [] (relationSort [.atom]) ⟨3⟩ ∧
    HasFunction builtinScript "atomNone" [] (relationSort [.atom]) ⟨4⟩ ∧
    HasFunction builtinScript "atomIden" [] (relationSort [.atom, .atom]) ⟨5⟩ := by
  refine ⟨⟨?_, rfl⟩, ⟨?_, rfl⟩, ⟨?_, rfl⟩⟩ <;> decide

theorem hasFunction_intSort {w : IntSort} (hw : w ∈ intSorts) : ∃ d, HasFunction builtinScript
    w.value [.named w.sort] (.tuple (List.replicate w.width .int)) d := by
  simp only [intSorts, List.mem_cons, List.not_mem_nil, or_false] at hw
  rcases hw with rfl | rfl | rfl
  · exact ⟨⟨0⟩, by decide, rfl⟩
  · exact ⟨⟨1⟩, by decide, rfl⟩
  · exact ⟨⟨2⟩, by decide, rfl⟩

namespace DeclaresVocabulary

variable {m : Model} {v : Vocabulary} (h : DeclaresVocabulary m v p)

include h

theorem declared : Declared v p.script where
  sig hd := by
    obtain ⟨g, hg, hdecl⟩ := forall₂_getElem?_right h.signatures hd
    exact ⟨g, by rw [h.model]; exact hg, hdecl.2, hdecl.1⟩
  field {id d} hd := by
    obtain ⟨ids, hids, hd⟩ := Option.bind_eq_some_iff.mp hd
    obtain ⟨g, hg, hall⟩ := forall₂_getElem?_right h.fields hids
    obtain ⟨f, hf, hdecl⟩ := forall₂_getElem?_right hall hd
    refine ⟨g, f, by rw [h.model]; exact hg, ?_, hdecl.2, hdecl.1⟩
    rw [h.model, Model.field?, Model.signature?, hg]
    exact hf
  univ := h.univ ▸ hasFunction_builtin.1.extend h.builtin
  none := h.none ▸ hasFunction_builtin.2.1.extend h.builtin
  iden := h.iden ▸ hasFunction_builtin.2.2.extend h.builtin
  values w hw := by
    obtain ⟨d, hd⟩ := hasFunction_intSort hw
    exact ⟨d, hd.extend h.builtin⟩

theorem signature_relation {id : SigId} {g : Signature} (hg : m.signature? id = some g) :
    ∃ d, v.signatures[id.index]? = some d ∧ p.script.lookup (relationName g.label) = some d := by
  obtain ⟨d, hd, hdecl⟩ := forall₂_getElem?_left h.signatures hg
  exact ⟨d, hd, hdecl.2⟩

theorem field_relation {id : FieldId} {g : Signature} {f : Field}
    (hg : m.signature? id.sig = some g) (hf : m.field? id = some f) :
    ∃ d, v.field? id = some d ∧ p.script.lookup (fieldName g f) = some d := by
  obtain ⟨ids, hids, hall⟩ := forall₂_getElem?_left h.fields hg
  rw [Model.field?, hg, Option.bind_some] at hf
  obtain ⟨d, hd, hdecl⟩ := forall₂_getElem?_left hall hf
  exact ⟨d, Option.bind_eq_some_iff.mpr ⟨ids, hids, hd⟩, hdecl.2⟩

end DeclaresVocabulary

end TupleLogic.Encoding
