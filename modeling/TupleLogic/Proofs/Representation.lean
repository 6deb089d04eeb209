import Mathlib.Data.List.Nodup
import TupleLogic.Proofs.Growth

/-! What every script holds. The three lists of declarations and the index say
nothing that the arena does not say: each list is the declarations of its kind
in the order in which they were added, and a name leads to the one declaration
that has it and is no variable. Every command keeps it so. -/

namespace TupleLogic

inductive Declaration.Kind where
  | function
  | constant
  | definition
  | variable
  deriving DecidableEq

def Declaration.kind : Declaration → Kind
  | .function .. => .function
  | .constant .. => .constant
  | .definition .. => .definition
  | .variable .. => .variable

/-- Functions are printed before constants, and these before definitions. -/
def Declaration.Kind.rank : Kind → Nat
  | .function => 0
  | .constant => 1
  | .definition => 2
  | .variable => 3

namespace Script

/-- The scripts that commands make, starting from the empty one. -/
inductive Built : Script → Prop
  | empty : Built empty
  | declareSort {s t : Script} {name : String} {arity : Nat} :
    Built s → s.declareSort name arity = .ok t → Built t
  | setCardinality {s t : Script} {name : String} {count : Nat} :
    Built s → s.setCardinality name count = .ok t → Built t
  | declareFunction {s t : Script} {name : String} {inputs : List TermSort} {output : TermSort}
    {id : DeclId} : Built s → s.declareFunction name inputs output = .ok (id, t) → Built t
  | declareConstant {s t : Script} {name : String} {sort : TermSort} {id : DeclId} :
    Built s → s.declareConstant name sort = .ok (id, t) → Built t
  | defineFunction {s t : Script} {name : String} {parameters : List DeclId} {output : TermSort}
    {body : Term} {id : DeclId} :
    Built s → s.defineFunction name parameters output body = .ok (id, t) → Built t
  | addVariable {s : Script} (name : String) (sort : TermSort) :
    Built s → Built (s.addVariable name sort).2
  | addAssertion {s : Script} (name : Option String) (formula : Term) :
    Built s → Built (s.addAssertion name formula)

variable {s t : Script}

/-! ## Declarations of a kind -/

/-- The positions of all declarations of a kind, in order. -/
def entries (s : Script) (k : Declaration.Kind) : List DeclId :=
  ((List.range s.arena.size).map DeclId.mk).filter fun id =>
    (s.arena[id.index]?).map Declaration.kind = some k

theorem mem_entries {k : Declaration.Kind} {id : DeclId} :
    id ∈ s.entries k ↔ ∃ d, s.arena[id.index]? = some d ∧ d.kind = k := by
  rw [entries, List.mem_filter, decide_eq_true_eq, Option.map_eq_some_iff]
  refine ⟨And.right, fun ⟨d, hd, hk⟩ => ⟨?_, d, hd, hk⟩⟩
  obtain ⟨hlt, _⟩ := Array.getElem?_eq_some_iff.mp hd
  exact List.mem_map.mpr ⟨id.index, List.mem_range.mpr hlt, rfl⟩

theorem nodup_entries (s : Script) (k : Declaration.Kind) : (s.entries k).Nodup := by
  refine List.Nodup.filter _ (List.Nodup.map (fun i j h => ?_) List.nodup_range)
  exact DeclId.mk.inj h

theorem entries_eq_of_arena (h : t.arena = s.arena) (k : Declaration.Kind) :
    t.entries k = s.entries k := by
  rw [entries, entries, h]

theorem entries_push {d : Declaration} (h : t.arena = s.arena.push d) (k : Declaration.Kind) :
    t.entries k = s.entries k ++ if d.kind = k then [s.nextId] else [] := by
  unfold entries
  rw [h, Array.size_push, List.range_succ, List.map_append, List.filter_append]
  congr 1
  · -- the earlier positions hold what they held
    refine List.filter_congr fun id hid => ?_
    obtain ⟨i, hi, rfl⟩ := List.mem_map.mp hid
    rw [Array.getElem?_push, if_neg (Nat.ne_of_lt (List.mem_range.mp hi))]
  · by_cases hk : d.kind = k
    · rw [if_pos hk, List.map_singleton, List.filter_singleton, Array.getElem?_push_size,
        Option.map_some, hk, decide_eq_true rfl]
      rfl
    · rw [if_neg hk, List.map_singleton, List.filter_singleton, Array.getElem?_push_size,
        Option.map_some, decide_eq_false (fun h => hk (Option.some.inj h))]
      rfl

theorem entries_mono (h : s.Extends t) {k : Declaration.Kind} {id : DeclId}
    (hid : id ∈ s.entries k) : id ∈ t.entries k := by
  obtain ⟨d, hd, hk⟩ := mem_entries.mp hid
  exact mem_entries.mpr ⟨d, h.decl hd, hk⟩

theorem variable_mem_entries {id : DeclId} :
    id ∈ s.entries .variable ↔ ∃ name sort, s.arena[id.index]? = some (.variable name sort) := by
  rw [mem_entries]
  constructor
  · rintro ⟨_ | _ | _ | ⟨name, sort⟩, hd, hk⟩
    · cases hk
    · cases hk
    · cases hk
    · exact ⟨name, sort, hd⟩
  · rintro ⟨name, sort, hd⟩
    exact ⟨_, hd, rfl⟩

/-! ## Coherence -/

structure Coherent (s : Script) : Prop where
  functions : s.functions = s.entries .function
  constants : s.constants = s.entries .constant
  definitions : s.definitions = s.entries .definition
  lookup : ∀ {name : String} {id : DeclId}, s.lookup name = some id ↔
    ∃ d, s.arena[id.index]? = some d ∧ d.name = name ∧ d.kind ≠ .variable
  parameters : ∀ {i : Nat} {name : String} {parameters : List DeclId} {output : TermSort}
    {body : Term}, s.arena[i]? = some (.definition name parameters output body) →
      ∀ p ∈ parameters, p ∈ s.entries .variable
  sortNames : (s.sorts.map (·.name)).Nodup

theorem coherent_empty : empty.Coherent where
  functions := rfl
  constants := rfl
  definitions := rfl
  lookup := ⟨nofun, fun ⟨_, h, _⟩ => nomatch h⟩
  parameters := nofun
  sortNames := List.nodup_nil

/-- Nothing depends on the assertions, and of the sorts only the names matter. -/
theorem Coherent.of_declarations (h : s.Coherent) (harena : t.arena = s.arena)
    (hindex : t.index = s.index) (hfunctions : t.functions = s.functions)
    (hconstants : t.constants = s.constants) (hdefinitions : t.definitions = s.definitions)
    (hsorts : (t.sorts.map (·.name)).Nodup) : t.Coherent where
  functions := by rw [hfunctions, h.functions, entries_eq_of_arena harena]
  constants := by rw [hconstants, h.constants, entries_eq_of_arena harena]
  definitions := by rw [hdefinitions, h.definitions, entries_eq_of_arena harena]
  lookup := by
    intro name id
    rw [Script.lookup, hindex, harena]
    exact h.lookup
  parameters := by
    intro i name ps output body hd p hp
    rw [entries_eq_of_arena harena]
    rw [harena] at hd
    exact h.parameters hd p hp
  sortNames := hsorts

theorem getElem?_push_eq_some {d e : Declaration} {i : Nat} :
    (s.arena.push d)[i]? = some e ↔ s.arena[i]? = some e ∨ (i = s.arena.size ∧ d = e) := by
  rw [Array.getElem?_push]
  split
  · rename_i hi
    rw [hi, Array.getElem?_eq_none (Nat.le_refl _), Option.some.injEq]
    exact ⟨fun h => .inr ⟨rfl, h⟩, fun h => h.elim nofun And.right⟩
  · rename_i hi
    exact ⟨.inl, fun h => h.elim id fun h => absurd h.1 hi⟩

/-- What a declaration of any kind has to do with the lists and the index. -/
theorem Coherent.push (h : s.Coherent) {d : Declaration} (harena : t.arena = s.arena.push d)
    (hlookup : ∀ {name : String} {id : DeclId}, t.lookup name = some id ↔
      s.lookup name = some id ∨ (id = s.nextId ∧ d.name = name ∧ d.kind ≠ .variable))
    (hparameters : ∀ {name : String} {parameters : List DeclId} {output : TermSort} {body : Term},
      d = .definition name parameters output body → ∀ p ∈ parameters, p ∈ s.entries .variable)
    (hfunctions : t.functions = s.functions ++ if d.kind = .function then [s.nextId] else [])
    (hconstants : t.constants = s.constants ++ if d.kind = .constant then [s.nextId] else [])
    (hdefinitions : t.definitions = s.definitions ++ if d.kind = .definition then [s.nextId] else [])
    (hsorts : t.sorts = s.sorts) : t.Coherent where
  functions := by rw [hfunctions, h.functions, entries_push harena]
  constants := by rw [hconstants, h.constants, entries_push harena]
  definitions := by rw [hdefinitions, h.definitions, entries_push harena]
  lookup := by
    intro name id
    rw [hlookup, h.lookup, harena]
    simp only [getElem?_push_eq_some, or_and_right, exists_or]
    refine or_congr_right ⟨?_, ?_⟩
    · rintro ⟨rfl, hname, hk⟩
      exact ⟨d, ⟨rfl, rfl⟩, hname, hk⟩
    · rintro ⟨_, ⟨hid, rfl⟩, hname, hk⟩
      exact ⟨congrArg DeclId.mk hid, hname, hk⟩
  parameters := by
    intro i name ps output body hd p hp
    rw [entries_push harena, List.mem_append]
    rw [harena, getElem?_push_eq_some] at hd
    rcases hd with hd | ⟨_, hd⟩
    · exact .inl (h.parameters hd p hp)
    · exact .inl (hparameters hd p hp)
  sortNames := hsorts ▸ h.sortNames

theorem lookup_register {d : Declaration} (hfree : s.lookup d.name = none) {name : String}
    {id : DeclId} : (s.register d).lookup name = some id ↔
      s.lookup name = some id ∨ (id = s.nextId ∧ d.name = name) := by
  rw [lookup, register, List.lookup_cons]
  split
  · rename_i hname
    rw [beq_iff_eq] at hname
    rw [hname, hfree, Option.some.injEq]
    exact ⟨fun h => .inr ⟨h.symm, rfl⟩, fun h => h.elim nofun fun h => h.1.symm⟩
  · rename_i hname
    rw [beq_eq_false_iff_ne] at hname
    exact ⟨.inl, fun h => h.elim (fun h => h) fun h => absurd h.2.symm hname⟩

/-! ## One command -/

theorem Coherent.declareSort (h : s.Coherent) {name : String} {arity : Nat}
    (hs : s.declareSort name arity = .ok t) : t.Coherent := by
  obtain ⟨hfree, rfl⟩ := declareSort_eq_ok.mp hs
  refine h.of_declarations rfl rfl rfl rfl rfl ?_
  rw [List.map_append, List.map_singleton, List.nodup_append']
  refine ⟨h.sortNames, List.nodup_singleton _, ?_⟩
  rw [List.disjoint_singleton]
  intro hmem
  obtain ⟨d, hd, hname⟩ := List.mem_map.mp hmem
  have hnone := List.find?_eq_none.mp hfree d hd
  rw [decide_eq_true_eq] at hnone
  exact hnone hname

theorem Coherent.setCardinality (h : s.Coherent) {name : String} {count : Nat}
    (hs : s.setCardinality name count = .ok t) : t.Coherent := by
  obtain ⟨_, rfl⟩ := setCardinality_eq_ok.mp hs
  refine h.of_declarations rfl rfl rfl rfl rfl ?_
  rw [List.map_map]
  have hnames : s.sorts.map ((·.name) ∘ fun d =>
      if d.name = name then { d with cardinality := some count } else d) =
      s.sorts.map (·.name) := by
    refine List.map_congr_left fun d _ => ?_
    rw [Function.comp_apply]
    split <;> rfl
  rw [hnames]
  exact h.sortNames

theorem Coherent.declareFunction (h : s.Coherent) {name : String} {inputs : List TermSort}
    {output : TermSort} {id : DeclId} (hs : s.declareFunction name inputs output = .ok (id, t)) :
    t.Coherent := by
  obtain ⟨hfree, _, rfl⟩ := declareFunction_eq_ok.mp hs
  refine h.push (d := .function name inputs output) rfl (fun {n i} => ?_) nofun rfl
    (List.append_nil _).symm (List.append_nil _).symm rfl
  exact (lookup_register hfree).trans (or_congr_right (by simp [Declaration.kind]))

theorem Coherent.declareConstant (h : s.Coherent) {name : String} {sort : TermSort} {id : DeclId}
    (hs : s.declareConstant name sort = .ok (id, t)) : t.Coherent := by
  obtain ⟨hfree, _, rfl⟩ := declareConstant_eq_ok.mp hs
  refine h.push (d := .constant name sort) rfl (fun {n i} => ?_) nofun
    (List.append_nil _).symm rfl (List.append_nil _).symm rfl
  exact (lookup_register hfree).trans (or_congr_right (by simp [Declaration.kind]))

theorem Coherent.defineFunction (h : s.Coherent) {name : String} {parameters : List DeclId}
    {output : TermSort} {body : Term} {id : DeclId}
    (hs : s.defineFunction name parameters output body = .ok (id, t)) : t.Coherent := by
  obtain ⟨hfree, hvars, _, rfl⟩ := defineFunction_eq_ok.mp hs
  refine h.push (d := .definition name parameters output body) rfl (fun {n i} => ?_) ?_
    (List.append_nil _).symm (List.append_nil _).symm rfl rfl
  · exact (lookup_register hfree).trans (or_congr_right (by simp [Declaration.kind]))
  · intro _ ps _ _ hd p hp
    cases hd
    exact variable_mem_entries.mpr (hvars p hp)

theorem Coherent.addVariable (h : s.Coherent) (name : String) (sort : TermSort) :
    (s.addVariable name sort).2.Coherent := by
  refine h.push (d := .variable name sort) rfl (fun {n i} => ?_) nofun
    (List.append_nil _).symm (List.append_nil _).symm (List.append_nil _).symm rfl
  exact ⟨.inl, fun h => h.elim (fun h => h) fun h => absurd rfl h.2.2⟩

theorem Coherent.addAssertion (h : s.Coherent) (name : Option String) (formula : Term) :
    (s.addAssertion name formula).Coherent :=
  h.of_declarations rfl rfl rfl rfl rfl h.sortNames

/-! ## All commands -/

theorem Built.coherent (h : s.Built) : s.Coherent := by
  induction h with
  | empty => exact coherent_empty
  | declareSort _ hs ih => exact ih.declareSort hs
  | setCardinality _ hs ih => exact ih.setCardinality hs
  | declareFunction _ hs ih => exact ih.declareFunction hs
  | declareConstant _ hs ih => exact ih.declareConstant hs
  | defineFunction _ hs ih => exact ih.defineFunction hs
  | addVariable name sort _ ih => exact ih.addVariable name sort
  | addAssertion name formula _ ih => exact ih.addAssertion name formula

/-! ## Declarations of any kind -/

/-- Adds a declaration under its name, to the list of its kind. -/
def add (s : Script) (d : Declaration) : Script :=
  { s.register d with
    functions := s.functions ++ if d.kind = .function then [s.nextId] else []
    constants := s.constants ++ if d.kind = .constant then [s.nextId] else []
    definitions := s.definitions ++ if d.kind = .definition then [s.nextId] else [] }

theorem declareFunction_eq_add {name : String} {inputs : List TermSort} {output : TermSort}
    {id : DeclId} : s.declareFunction name inputs output = .ok (id, t) ↔
      s.lookup name = none ∧ id = s.nextId ∧ t = s.add (.function name inputs output) := by
  have hadd : s.add (.function name inputs output) =
      { s.register (.function name inputs output) with
        functions := s.functions ++ [s.nextId] } := by
    simp [add, Declaration.kind, register]
  rw [declareFunction_eq_ok, hadd]
  exact and_congr_right fun _ => and_congr eq_comm eq_comm

theorem declareConstant_eq_add {name : String} {sort : TermSort} {id : DeclId} :
    s.declareConstant name sort = .ok (id, t) ↔
      s.lookup name = none ∧ id = s.nextId ∧ t = s.add (.constant name sort) := by
  have hadd : s.add (.constant name sort) =
      { s.register (.constant name sort) with constants := s.constants ++ [s.nextId] } := by
    simp [add, Declaration.kind, register]
  rw [declareConstant_eq_ok, hadd]
  exact and_congr_right fun _ => and_congr eq_comm eq_comm

theorem defineFunction_eq_add {name : String} {parameters : List DeclId} {output : TermSort}
    {body : Term} {id : DeclId} : s.defineFunction name parameters output body = .ok (id, t) ↔
      s.lookup name = none ∧ (∀ p ∈ parameters, p ∈ s.entries .variable) ∧ id = s.nextId ∧
        t = s.add (.definition name parameters output body) := by
  have hadd : s.add (.definition name parameters output body) =
      { s.register (.definition name parameters output body) with
        definitions := s.definitions ++ [s.nextId] } := by
    simp [add, Declaration.kind, register]
  rw [defineFunction_eq_ok, hadd]
  simp only [variable_mem_entries]
  exact and_congr_right fun _ => and_congr_right fun _ => and_congr eq_comm eq_comm

theorem extends_add {d : Declaration} (h : s.lookup d.name = none) : s.Extends (s.add d) :=
  ⟨(extends_register h).decl, (extends_register h).lookup⟩

theorem continues_add {d : Declaration} (h : s.lookup d.name = none) : s.Continues (s.add d) :=
  ⟨extends_add h, List.prefix_rfl⟩

theorem add_getElem? (s : Script) (d : Declaration) :
    (s.add d).arena[s.nextId.index]? = some d :=
  Array.getElem?_push_size

theorem lookup_add {d : Declaration} (hfree : s.lookup d.name = none) {name : String}
    {id : DeclId} : (s.add d).lookup name = some id ↔
      s.lookup name = some id ∨ (id = s.nextId ∧ d.name = name) :=
  lookup_register hfree

theorem Coherent.add (h : s.Coherent) {d : Declaration} (hfree : s.lookup d.name = none)
    (hkind : d.kind ≠ .variable)
    (hparameters : ∀ {name : String} {parameters : List DeclId} {output : TermSort} {body : Term},
      d = .definition name parameters output body → ∀ p ∈ parameters, p ∈ s.entries .variable) :
    (s.add d).Coherent := by
  refine h.push (d := d) rfl (fun {n i} => ?_) hparameters rfl rfl rfl rfl
  exact (lookup_add hfree).trans (or_congr_right (by simp [hkind]))

/-- Variables change no list but that of the variables. -/
theorem entries_addsVariables (h : s.AddsVariables t) {k : Declaration.Kind} (hk : k ≠ .variable) :
    t.entries k = s.entries k := by
  obtain ⟨n, hn⟩ := Nat.exists_eq_add_of_le h.extension.size_le
  unfold entries
  rw [hn, List.range_add, List.map_append, List.filter_append]
  have hnew : (((List.range n).map (s.arena.size + ·)).map DeclId.mk).filter
      (fun id => (t.arena[id.index]?).map Declaration.kind = some k) = [] := by
    rw [List.filter_eq_nil_iff]
    intro id hid
    simp only [List.map_map, List.mem_map, Function.comp_apply] at hid
    obtain ⟨i, _, rfl⟩ := hid
    rw [decide_eq_true_eq, Option.map_eq_some_iff]
    intro hkind
    obtain ⟨d, hd, rfl⟩ := hkind
    obtain ⟨name, sort, rfl⟩ := h.fresh hd (Nat.le_add_right _ _)
    exact hk rfl
  rw [hnew, List.append_nil]
  refine List.filter_congr fun id hid => ?_
  obtain ⟨i, hi, rfl⟩ := List.mem_map.mp hid
  have hs := Array.getElem?_eq_getElem (List.mem_range.mp hi)
  rw [h.extension.decl hs, hs]

theorem Coherent.addsVariables (h : s.Coherent) (hadds : s.AddsVariables t) : t.Coherent := by
  have hsame := hadds.same
  refine ⟨?_, ?_, ?_, ?_, ?_, ?_⟩
  · rw [entries_addsVariables hadds (by decide), ← h.functions, hsame]
  · rw [entries_addsVariables hadds (by decide), ← h.constants, hsame]
  · rw [entries_addsVariables hadds (by decide), ← h.definitions, hsame]
  · intro name id
    rw [Script.lookup, hadds.index]
    refine h.lookup.trans ⟨fun ⟨d, hd, hd'⟩ => ⟨d, hadds.extension.decl hd, hd'⟩, fun hd => ?_⟩
    obtain ⟨d, hd, hname, hkind⟩ := hd
    by_cases hlt : id.index < s.arena.size
    · have hs := Array.getElem?_eq_getElem hlt
      have ht := hadds.extension.decl hs
      rw [hd, Option.some.injEq] at ht
      exact ⟨d, ht ▸ hs, hname, hkind⟩
    · obtain ⟨_, _, rfl⟩ := hadds.fresh hd (Nat.not_lt.mp hlt)
      exact absurd rfl hkind
  · intro i name parameters output body hd p hp
    by_cases hlt : i < s.arena.size
    · have hs := Array.getElem?_eq_getElem hlt
      have ht := hadds.extension.decl hs
      rw [hd, Option.some.injEq] at ht
      exact entries_mono hadds.extension (h.parameters (ht ▸ hs) p hp)
    · obtain ⟨_, _, h⟩ := hadds.fresh hd (Nat.not_lt.mp hlt)
      cases h
  · rw [hsame]
    exact h.sortNames

end Script

end TupleLogic
