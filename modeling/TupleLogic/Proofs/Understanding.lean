import TupleLogic.Proofs.TokenContent

/-! What the reader makes of texts. Whatever it has read so far, every sort is
declared, every name can be written, every operator has legal operands, and
every reference goes to a variable around it or to a declaration before it.
Names lead back to what they are the names of, except for two things that a
text may say and that cannot be said again: a solver's value that a variable
hides, and a function named like the head of a special form. -/

namespace TupleLogic

namespace TermSort

mutual
/-- A sort that can be read where some sorts are declared. Unlike a legible
sort it may have the name of a builtin one. -/
def known (declared : String → Bool) : TermSort → Bool
  | .named n => declared n
  | .set e => !e.isSet && e.known declared
  | .tuple cs => !cs.isEmpty && knownAll declared cs
  | .int | .bool | .real | .string => true

def knownAll (declared : String → Bool) : List TermSort → Bool
  | [] => true
  | c :: cs => c.known declared && knownAll declared cs
end

section Known

variable {declared declared' : String → Bool}

theorem knownAll_iff {cs : List TermSort} :
    knownAll declared cs = true ↔ ∀ c ∈ cs, c.known declared = true := by
  induction cs with
  | nil => simp [knownAll]
  | cons c cs ih => rw [knownAll, Bool.and_eq_true, ih, List.forall_mem_cons]

mutual
theorem known_mono (h : ∀ {n}, declared n = true → declared' n = true) :
    ∀ {sort : TermSort}, sort.known declared = true → sort.known declared' = true
  | .named n, hs => h hs
  | .set e, hs => by
    rw [known, Bool.and_eq_true] at hs ⊢
    exact ⟨hs.1, known_mono h hs.2⟩
  | .tuple cs, hs => by
    rw [known, Bool.and_eq_true] at hs ⊢
    exact ⟨hs.1, knownAll_mono h hs.2⟩
  | .int, _ | .bool, _ | .real, _ | .string, _ => rfl

theorem knownAll_mono (h : ∀ {n}, declared n = true → declared' n = true) :
    ∀ {sorts : List TermSort}, knownAll declared sorts = true → knownAll declared' sorts = true
  | [], _ => rfl
  | c :: cs, hs => by
    rw [knownAll, Bool.and_eq_true] at hs ⊢
    exact ⟨known_mono h hs.1, knownAll_mono h hs.2⟩
end

mutual
theorem known_of_legible :
    ∀ {sort : TermSort}, sort.legible declared = true → sort.known declared = true
  | .named n, hs => by
    rw [legible, Bool.and_eq_true] at hs
    exact hs.1
  | .set e, hs => by
    rw [legible, Bool.and_eq_true] at hs
    rw [known, Bool.and_eq_true]
    exact ⟨hs.1, known_of_legible hs.2⟩
  | .tuple cs, hs => by
    rw [legible, Bool.and_eq_true] at hs
    rw [known, Bool.and_eq_true]
    exact ⟨hs.1, knownAll_of_legibleAll hs.2⟩
  | .int, _ | .bool, _ | .real, _ | .string, _ => rfl

theorem knownAll_of_legibleAll :
    ∀ {sorts : List TermSort}, legibleAll declared sorts = true → knownAll declared sorts = true
  | [], _ => rfl
  | c :: cs, hs => by
    rw [legibleAll, Bool.and_eq_true] at hs
    rw [knownAll, Bool.and_eq_true]
    exact ⟨known_of_legible hs.1, knownAll_of_legibleAll hs.2⟩
end

end Known

end TermSort

namespace Script

open TupleLogic.Symbol (writable)

namespace Reader

theorem known_of_readSort {r : Script} {e : SExpr} {sort : TermSort}
    (h : readSort r e = .ok sort) : sort.known r.declaresSort = true :=
  TermSort.known_of_legible (legible_of_readSort h).1

theorem known_of_readSorts {r : Script} {es : List SExpr} {sorts : List TermSort}
    (h : readSorts r es = .ok sorts) : TermSort.knownAll r.declaresSort sorts = true :=
  TermSort.knownAll_of_legibleAll (legible_of_readSorts h).1

end Reader

/-! ## What is read -/

/-- Names of values that a solver makes up. -/
def isSolverName (name : String) : Bool := name.toList.head? = some '@'

/-- What the reader makes next to the declarations before `limit`. -/
def understood (s : Script) (limit : Nat) : Usage where
  name := writable
  sort := TermSort.known s.declaresSort
  binder id :=
    match s.arena[id.index]? with
    | some (.variable name sort) => writable name && sort.known s.declaresSort
    | _ => false
  ref bound id := (bound.contains id || s.precedes limit id) && writable (s.nameOf id) &&
    !isLiteral (s.nameOf id) &&
    (decide (s.resolve bound (s.nameOf id) = some id) || isSolverName (s.nameOf id))
  call f args := writable f && (applied f (args.map Term.shape) || decide (f = "-" ∨ f = "as")) &&
    !isOperator f && (s.lookup f).any (s.precedes limit)

structure Understood (s : Script) : Prop where
  coherent : s.Coherent
  conforms : s.conforms s.understood isPlainComment = true

/-! ## Scripts that grow -/

/-- `t` has the declarations and the sorts of `s`. -/
structure Grows (s t : Script) : Prop where
  extension : s.Extends t
  sorts : ∀ {n}, s.declaresSort n = true → t.declaresSort n = true

section Growth

variable {s t u : Script} {limit limit' : Nat}

theorem Grows.refl (s : Script) : s.Grows s := ⟨.refl s, id⟩

theorem Grows.trans (h : s.Grows t) (h' : t.Grows u) : s.Grows u :=
  ⟨h.extension.trans h'.extension, fun hn => h'.sorts (h.sorts hn)⟩

theorem grows_declareSort {name : String} {arity : Nat} (h : s.declareSort name arity = .ok t) :
    s.Grows t := by
  obtain ⟨_, rfl⟩ := declareSort_eq_ok.mp h
  refine ⟨⟨id, id⟩, fun {n} hn => ?_⟩
  simp only [declaresSort, sortDeclaration?, List.find?_append, Option.isSome_or,
    Bool.or_eq_true] at hn ⊢
  exact .inl hn

theorem Extends.nameOf (h : s.Extends t) {id : DeclId} {d : Declaration}
    (hd : s.arena[id.index]? = some d) : t.nameOf id = s.nameOf id := by
  rw [nameOf_eq hd, nameOf_eq (h.decl hd)]

theorem Extends.precedes (h : s.Extends t) (hlimit : limit ≤ limit') {id : DeclId}
    (hid : s.precedes limit id = true) : t.precedes limit' id = true := by
  unfold Script.precedes at hid ⊢
  split at hid
  · rename_i hd
    rw [h.decl hd]
  · rename_i hd
    rw [h.decl hd]
  · rename_i hd
    rw [h.decl hd]
    rw [decide_eq_true_eq] at hid ⊢
    omega
  · cases hid

theorem exists_of_precedes {id : DeclId} (h : s.precedes limit id = true) :
    ∃ d, s.arena[id.index]? = some d ∧ d.kind ≠ .variable := by
  unfold precedes at h
  split at h
  · exact ⟨_, ‹_›, by simp [Declaration.kind]⟩
  · exact ⟨_, ‹_›, by simp [Declaration.kind]⟩
  · exact ⟨_, ‹_›, by simp [Declaration.kind]⟩
  · cases h

theorem Extends.resolve (h : s.Extends t) {bound : List DeclId} {name : String} {id : DeclId}
    (hbound : ∀ b ∈ bound, ∃ d, s.arena[b.index]? = some d)
    (hid : s.resolve bound name = some id) : t.resolve bound name = some id := by
  have hfind : bound.find? (fun b => decide (t.nameOf b = name)) =
      bound.find? fun b => decide (s.nameOf b = name) := by
    rw [← List.head?_filter, ← List.head?_filter]
    refine congrArg List.head? (List.filter_congr fun b hb => ?_)
    obtain ⟨d, hd⟩ := hbound b hb
    rw [h.nameOf hd]
  unfold Script.resolve at hid ⊢
  rw [hfind]
  split at hid
  · exact hid
  · exact h.lookup hid

theorem binder_understood {id : DeclId} (h : (s.understood limit).binder id = true) :
    ∃ name sort, s.arena[id.index]? = some (.variable name sort) ∧ writable name = true ∧
      sort.known s.declaresSort = true := by
  simp only [understood] at h
  split at h
  · rename_i name sort hd
    rw [Bool.and_eq_true] at h
    exact ⟨name, sort, hd, h⟩
  · cases h

theorem understood_mono (h : s.Grows t) (hlimit : limit ≤ limit') :
    (s.understood limit).Implies (t.understood limit') (s.understood limit).Binds where
  name h := h
  sort hsort := TermSort.known_mono h.sorts hsort
  binder hid := by
    obtain ⟨name, sort, hd, hname, hsort⟩ := binder_understood hid
    simp only [understood, h.extension.decl hd, hname, TermSort.known_mono h.sorts hsort,
      Bool.and_self]
  ref := by
    intro bound bound' id hbound hid
    obtain ⟨rfl, hbinders⟩ := hbound
    have hexists : ∀ b ∈ bound, ∃ d, s.arena[b.index]? = some d := fun b hb => by
      obtain ⟨name, sort, hd, _⟩ := binder_understood (hbinders b hb)
      exact ⟨_, hd⟩
    simp only [understood, Bool.and_eq_true, Bool.or_eq_true, List.contains_iff_mem,
      decide_eq_true_eq] at hid ⊢
    obtain ⟨⟨⟨hscope, hname⟩, hliteral⟩, hleads⟩ := hid
    obtain ⟨d, hd⟩ : ∃ d, s.arena[id.index]? = some d := by
      rcases hscope with hmem | hprecedes
      · exact hexists id hmem
      · obtain ⟨d, hd, _⟩ := exists_of_precedes hprecedes
        exact ⟨d, hd⟩
    rw [h.extension.nameOf hd]
    refine ⟨⟨⟨?_, hname⟩, hliteral⟩, ?_⟩
    · exact hscope.imp_right (h.extension.precedes hlimit)
    · exact hleads.imp_left (h.extension.resolve hexists)
  call := by
    intro f args hcall
    simp only [understood, Bool.and_eq_true, Option.any_eq_true] at hcall ⊢
    obtain ⟨hcall, id, hid, hprecedes⟩ := hcall
    exact ⟨hcall, id, h.extension.lookup hid, h.extension.precedes hlimit hprecedes⟩
  closed := Usage.binds_nil _
  enter := Usage.Binds.enter

/-- What was understood stays so, if what is new is understood too. -/
theorem Understood.grow (h : s.Understood) (hg : s.Grows t) (hc : t.Coherent)
    (hsorts : ∀ d ∈ t.sorts, d ∈ s.sorts ∨
      writable d.name = true ∧ Text.fitsUnsigned32 d.arity = true)
    (hdecls : ∀ id ∈ t.topLevel, id ∈ s.topLevel ∨
      ∃ d, t.arena[id.index]? = some d ∧ d.conforms (t.understood id.index) = true)
    (hasserts : ∀ a ∈ t.assertions, a ∈ s.assertions ∨
      (∀ n, a.name = some n → isPlainComment n = true) ∧
        a.formula.conforms (t.understood t.arena.size) [] = true) : t.Understood := by
  obtain ⟨hsorts', hdecls', hasserts'⟩ := conforms_iff.mp h.conforms
  refine ⟨hc, conforms_iff.mpr ⟨fun d hd => ?_, fun id hid => ?_, fun a ha => ?_⟩⟩
  · exact (hsorts d hd).elim (hsorts' d) id
  · rcases hdecls id hid with hid | hnew
    · obtain ⟨d, hd, hconf⟩ := hdecls' id hid
      exact ⟨d, hg.extension.decl hd,
        Declaration.conforms_mono (understood_mono hg (Nat.le_refl _)) hconf⟩
    · exact hnew
  · rcases hasserts a ha with ha | hnew
    · obtain ⟨hname, hconf⟩ := hasserts' a ha
      exact ⟨hname, Term.conforms_mono (understood_mono hg hg.extension.size_le)
        (Usage.binds_nil _) hconf⟩
    · exact hnew

/-! ## One command -/

theorem grows_addVariable (s : Script) (name : String) (sort : TermSort) :
    s.Grows (s.addVariable name sort).2 :=
  ⟨(addsVariables_addVariable s name sort).extension, id⟩

theorem grows_add {d : Declaration} (h : s.lookup d.name = none) : s.Grows (s.add d) :=
  ⟨extends_add h, id⟩

theorem Understood.addVariable (h : s.Understood) (name : String) (sort : TermSort) :
    (s.addVariable name sort).2.Understood :=
  h.grow (grows_addVariable s name sort) (h.coherent.addVariable name sort)
    (fun _ hd => .inl hd) (fun _ hid => .inl hid) (fun _ ha => .inl ha)

theorem Understood.add (h : s.Understood) {d : Declaration} (hfree : s.lookup d.name = none)
    (hparameters : ∀ {name : String} {parameters : List DeclId} {output : TermSort} {body : Term},
      d = .definition name parameters output body → ∀ p ∈ parameters, p ∈ s.entries .variable)
    (hconf : d.conforms (s.understood s.arena.size) = true) : (s.add d).Understood := by
  have hkind : d.kind ≠ .variable := by
    cases d <;> simp_all [Declaration.kind, Declaration.conforms]
  have hc := h.coherent.add hfree hkind hparameters
  refine h.grow (grows_add hfree) hc (fun _ hd => .inl hd) (fun id hid => ?_) fun _ ha => .inl ha
  obtain ⟨e, he, hek⟩ := (mem_topLevel hc).mp hid
  rcases getElem?_push_eq_some.mp he with hold | ⟨hindex, rfl⟩
  · exact .inl ((mem_topLevel h.coherent).mpr ⟨e, hold, hek⟩)
  · refine .inr ⟨d, he, ?_⟩
    rw [hindex]
    exact Declaration.conforms_mono (understood_mono (grows_add hfree) (Nat.le_refl _)) hconf

theorem Understood.addAssertion (h : s.Understood) {name : Option String} {formula : Term}
    (hname : ∀ n, name = some n → isPlainComment n = true)
    (hconf : formula.conforms (s.understood s.arena.size) [] = true) :
    (s.addAssertion name formula).Understood := by
  refine h.grow ⟨extends_addAssertion s name formula, id⟩ (h.coherent.addAssertion name formula)
    (fun _ hd => .inl hd) (fun _ hid => .inl hid) fun a ha => ?_
  rcases List.mem_append.mp ha with ha | ha
  · exact .inl ha
  · obtain rfl := List.mem_singleton.mp ha
    exact .inr ⟨hname, hconf⟩

theorem Understood.declareSort (h : s.Understood) {name : String} {arity : Nat}
    (hs : s.declareSort name arity = .ok t) (hname : writable name = true)
    (harity : Text.fitsUnsigned32 arity = true) : t.Understood := by
  have hc := h.coherent.declareSort hs
  have hgrows := grows_declareSort hs
  obtain ⟨_, rfl⟩ := declareSort_eq_ok.mp hs
  refine h.grow hgrows hc (fun d hd => ?_) (fun _ hid => .inl hid) fun _ ha => .inl ha
  rcases List.mem_append.mp hd with hd | hd
  · exact .inl hd
  · obtain rfl := List.mem_singleton.mp hd
    exact .inr ⟨hname, harity⟩

/-- No declaration depends on what a sort has beyond its name and arity. -/
theorem Understood.mapSorts (h : s.Understood) {f : SortDeclaration → SortDeclaration}
    (hname : ∀ d, (f d).name = d.name) (harity : ∀ d, (f d).arity = d.arity) :
    { s with sorts := s.sorts.map f }.Understood := by
  obtain ⟨hsorts, _⟩ := conforms_iff.mp h.conforms
  have hc : { s with sorts := s.sorts.map f }.Coherent := by
    refine h.coherent.of_declarations rfl rfl rfl rfl rfl ?_
    simp only [List.map_map, Function.comp_def, hname]
    exact h.coherent.sortNames
  refine h.grow ⟨⟨id, id⟩, fun {n} hn => ?_⟩ hc (fun e he => ?_) (fun _ hid => .inl hid)
    fun _ ha => .inl ha
  · simp only [declaresSort, sortDeclaration?, List.find?_isSome, decide_eq_true_eq] at hn ⊢
    obtain ⟨d, hd, rfl⟩ := hn
    exact ⟨f d, List.mem_map_of_mem hd, hname d⟩
  · obtain ⟨d, hd, rfl⟩ := List.mem_map.mp he
    rw [hname, harity]
    exact .inr (hsorts d hd)

end Growth

end Script

end TupleLogic
