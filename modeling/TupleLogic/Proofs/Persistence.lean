import TupleLogic.Proofs.Commands

/-! What commands leave alone. They add to a script and take nothing away, whether they
are carried out or refused, so a position, a name and an assertion mean the same ever
after. So do terms over the positions that are there: a sort that was found for one is
found again, and the text of one does not change on any page. -/

namespace TupleLogic

/-! ## Results that last -/

/-- What the first gives the second gives. -/
def Lasts {ε α : Type} (x y : Except ε α) : Prop := ∀ a, x = .ok a → y = .ok a

theorem Lasts.refl {ε α : Type} (x : Except ε α) : Lasts x x := fun _ => id

theorem Lasts.bind {ε α β : Type} {x y : Except ε α} {f g : α → Except ε β} (hx : Lasts x y)
    (hf : ∀ a, Lasts (f a) (g a)) : Lasts (x >>= f) (y >>= g) := by
  intro b hb
  obtain ⟨a, ha, hfa⟩ := bind_eq_ok.mp hb
  exact bind_eq_ok.mpr ⟨a, hx a ha, hf a b hfa⟩

namespace Script

variable {s t u : Script}

/-! ## Commands -/

theorem continues_execute {c : Command} {answer : Option DeclId}
    (h : s.execute c = .ok (answer, t)) : s.Continues t := by
  rw [execute_eq] at h
  cases c with
  | declareSort name arity =>
    obtain ⟨r, hr, hrt⟩ := map_eq_ok.mp h
    cases hrt
    obtain ⟨_, rfl⟩ := declareSort_eq_ok.mp hr
    exact continues_sorts s _
  | setCardinality name count =>
    obtain ⟨r, hr, hrt⟩ := map_eq_ok.mp h
    cases hrt
    obtain ⟨_, rfl⟩ := setCardinality_eq_ok.mp hr
    exact continues_sorts s _
  | declareFunction name inputs output =>
    obtain ⟨r, hr, hrt⟩ := map_eq_ok.mp h
    cases hrt
    obtain ⟨hfree, _, hr⟩ := declareFunction_eq_add.mp hr
    exact hr ▸ continues_add hfree
  | declareConstant name sort =>
    obtain ⟨r, hr, hrt⟩ := map_eq_ok.mp h
    cases hrt
    obtain ⟨hfree, _, hr⟩ := declareConstant_eq_add.mp hr
    exact hr ▸ continues_add hfree
  | defineFunction name parameters output body =>
    obtain ⟨r, hr, hrt⟩ := map_eq_ok.mp h
    cases hrt
    obtain ⟨hfree, _, _, hr⟩ := defineFunction_eq_add.mp hr
    exact hr ▸ continues_add hfree
  | addVariable name sort =>
    cases h
    exact (addsVariables_addVariable s name sort).continues
  | addAssertion name formula =>
    cases h
    exact continues_addAssertion s name formula

theorem continues_after (s : Script) (c : Command) : s.Continues (s.after c) := by
  cases hc : s.execute c with
  | error e =>
    rw [after_of_refused hc]
    exact .refl s
  | ok r =>
    rw [after_of_execute hc]
    exact continues_execute hc

theorem continues_afterAll (s : Script) (cs : List Command) : s.Continues (s.afterAll cs) := by
  induction cs generalizing s with
  | nil => exact .refl s
  | cons c cs ih => exact (continues_after s c).trans (ih (s.after c))

/-! ## Sorts -/

theorem Extends.decl_lasts (h : s.Extends t) (id : DeclId) : Lasts (s.decl id) (t.decl id) :=
  fun _ hd => decl_eq_ok.mpr (h.decl (decl_eq_ok.mp hd))

/-- The sort of a declaration, as sorts of terms ask for it. -/
theorem Extends.sort_lasts (h : s.Extends t) (id : DeclId) :
    Lasts (do return (← s.decl id).sort) (do return (← t.decl id).sort) :=
  (h.decl_lasts id).bind fun _ => .refl _

mutual
/-- A sort that was found is found again. -/
theorem Extends.sortOf_lasts (h : s.Extends t) : ∀ a : Term, Lasts (s.sortOf a) (t.sortOf a)
  | .ref id => by
    rw [sortOf, sortOf]
    exact h.sort_lasts id
  | .int _ | .bool _ | .emptySet _ | .fullSet _ | .quantified _ _ _ => by
    rw [sortOf, sortOf]
    exact .refl _
  | .unary op a => by
    cases op with
    | not =>
      rw [sortOf, sortOf]
      exact .refl _
    | singleton | transpose | closure =>
      rw [sortOf, sortOf]
      exact (h.sortOf_lasts a).bind fun _ => .refl _
    | complement =>
      rw [sortOf, sortOf]
      exact h.sortOf_lasts a
  | .binary op a b => by
    cases op with
    | implies | eq | member | subset | lt | le | gt | ge =>
      rw [sortOf, sortOf]
      exact .refl _
    | union | intersection | difference | join | product =>
      rw [sortOf, sortOf]
      exact (h.sortOf_lasts a).bind fun _ => (h.sortOf_lasts b).bind fun _ => .refl _
    | select =>
      cases a with
      | int column =>
        rw [sortOf, sortOf]
        exact (h.sortOf_lasts b).bind fun _ => .refl _
      | _ =>
        simp only [sortOf]
        exact .refl _
  | .nary op args => by
    cases op with
    | and | or | distinct =>
      rw [sortOf, sortOf]
      exact .refl _
    | tuple =>
      rw [sortOf, sortOf]
      exact (h.sortsOf_lasts args).bind fun _ => .refl _
    | insert =>
      rw [sortOf, sortOf]
      exact h.sortOfLast_lasts args
  | .ite _ a _ => by
    rw [sortOf, sortOf]
    exact h.sortOf_lasts a
  | .call f _ => by
    -- a name that is unknown may become known, but not the other way round
    rw [sortOf, sortOf]
    cases hf : s.lookup f with
    | none =>
      intro sort hsort
      cases hsort
    | some id =>
      rw [h.lookup hf]
      exact h.sort_lasts id

theorem Extends.sortsOf_lasts (h : s.Extends t) :
    ∀ args : List Term, Lasts (s.sortsOf args) (t.sortsOf args)
  | [] => by
    rw [sortsOf, sortsOf]
    exact .refl _
  | a :: args => by
    rw [sortsOf, sortsOf]
    exact (h.sortOf_lasts a).bind fun _ => (h.sortsOf_lasts args).bind fun _ => .refl _

theorem Extends.sortOfLast_lasts (h : s.Extends t) :
    ∀ args : List Term, Lasts (s.sortOfLast args) (t.sortOfLast args)
  | [] => by
    rw [sortOfLast, sortOfLast]
    exact .refl _
  | a :: args => by
    rw [sortOfLast, sortOfLast]
    split
    · exact h.sortOf_lasts a
    · exact h.sortOfLast_lasts args
end

/-! ## Texts -/

theorem Extends.decl_eq (h : s.Extends t) {id : DeclId} (hid : id.index < s.arena.size) :
    t.decl id = s.decl id := by
  have hd := Array.getElem?_eq_getElem hid
  rw [Script.decl, Script.decl, h.decl hd, hd]

theorem Extends.bindingBlock_eq (h : s.Extends t) (depth : Nat) {id : DeclId}
    (hid : id.index < s.arena.size) : t.bindingBlock depth id = s.bindingBlock depth id := by
  rw [bindingBlock, bindingBlock, h.decl_eq hid]

theorem Extends.bindingsBlock_eq (h : s.Extends t) (depth : Nat) {ids : List DeclId}
    (hids : ∀ id ∈ ids, id.index < s.arena.size) :
    t.bindingsBlock depth ids = s.bindingsBlock depth ids := by
  have hmap : ids.mapM (t.bindingBlock depth) = ids.mapM (s.bindingBlock depth) := by
    induction ids with
    | nil => rfl
    | cons id ids ih =>
      obtain ⟨hid, hids⟩ := List.forall_mem_cons.mp hids
      rw [List.mapM_cons, List.mapM_cons, h.bindingBlock_eq depth hid, ih hids]
  rw [bindingsBlock, bindingsBlock, hmap]

mutual
/-- A term over the declarations of `s` is written in `t` as it is in `s`, or refused for
the same reason. Names that it calls are not looked up. -/
theorem Extends.termBlock_eq (h : s.Extends t) : ∀ (depth : Nat) (a : Term),
    (∀ id ∈ a.decls, id.index < s.arena.size) → t.termBlock depth a = s.termBlock depth a
  | depth, .ref id, ha => by
    rw [termBlock, termBlock, h.decl_eq (ha id (List.mem_singleton.mpr rfl))]
  | _, .int _, _ | _, .bool _, _ | _, .emptySet _, _ | _, .fullSet _, _ => by
    rw [termBlock, termBlock]
  | depth, .unary _ a, ha => by
    rw [termBlock, termBlock, h.termBlock_eq _ a ha]
  | depth, .binary op a b, hab => by
    obtain ⟨ha, hb⟩ := List.forall_mem_append.mp hab
    rw [termBlock, termBlock, h.termBlock_eq _ a ha, h.termBlock_eq _ b hb]
  | depth, .nary _ args, hargs => by
    rw [termBlock, termBlock, h.termBlocks_eq _ args hargs]
  | depth, .quantified _ vars body, hids => by
    obtain ⟨hvars, hbody⟩ := List.forall_mem_append.mp hids
    rw [termBlock, termBlock, h.bindingsBlock_eq _ hvars, h.termBlock_eq _ body hbody]
  | depth, .ite c a b, hids => by
    obtain ⟨hca, hb⟩ := List.forall_mem_append.mp hids
    obtain ⟨hc, ha⟩ := List.forall_mem_append.mp hca
    rw [termBlock, termBlock, h.termBlock_eq _ c hc, h.termBlock_eq _ a ha, h.termBlock_eq _ b hb]
  | depth, .call _ args, hargs => by
    rw [termBlock, termBlock, h.termBlocks_eq _ args hargs]

theorem Extends.termBlocks_eq (h : s.Extends t) : ∀ (depth : Nat) (args : List Term),
    (∀ id ∈ Term.declsList args, id.index < s.arena.size) →
      t.termBlocks depth args = s.termBlocks depth args
  | _, [], _ => by rw [termBlocks, termBlocks]
  | depth, a :: args, hids => by
    obtain ⟨ha, hargs⟩ := List.forall_mem_append.mp hids
    rw [termBlocks, termBlocks, h.termBlock_eq _ a ha, h.termBlocks_eq _ args hargs]
end

theorem Extends.printTerm_eq (h : s.Extends t) {a : Term}
    (ha : ∀ id ∈ a.decls, id.index < s.arena.size) (width : Nat) :
    t.printTerm width a = s.printTerm width a := by
  rw [printTerm, printTerm, h.termBlock_eq _ a ha]

/-! ## Scripts -/

/-- Scripts only grow. Whatever commands come after, and however many of them are
refused, positions keep their declarations, names their positions and assertions their
places; and terms keep the sorts that were found for them and, if they mention nothing
but what is declared, their texts, be these texts or refusals. -/
theorem afterAll_persists (s : Script) (cs : List Command) :
    (∀ id d, s.decl id = .ok d → (s.afterAll cs).decl id = .ok d) ∧
    (∀ name id, s.lookup name = some id → (s.afterAll cs).lookup name = some id) ∧
    s.assertions <+: (s.afterAll cs).assertions ∧
    ∀ a : Term, (∀ sort, s.sortOf a = .ok sort → (s.afterAll cs).sortOf a = .ok sort) ∧
      ((∀ id ∈ a.decls, id.index < s.arena.size) →
        ∀ width, (s.afterAll cs).printTerm width a = s.printTerm width a) := by
  obtain ⟨hextends, hassertions⟩ := continues_afterAll s cs
  refine ⟨fun id => hextends.decl_lasts id, fun name id => hextends.lookup, hassertions, ?_⟩
  exact fun a => ⟨hextends.sortOf_lasts a, hextends.printTerm_eq⟩

/-- A number and a variable. -/
def numberScript : Script :=
  empty.afterAll [.declareConstant "n" .int, .addVariable "x" .int]

/-- One that is refused, one that asserts, and one that declares what is called before. -/
def laterCommands : List Command :=
  [.declareConstant "n" .bool, .addAssertion none (.bool true), .declareFunction "f" [.int] .int]

/-- Every number is taken to the one that is declared, by a function that is not. -/
def allEqual : Term :=
  .quantified .all [⟨1⟩] (.binary .eq (.call "f" [.ref ⟨1⟩]) (.ref ⟨0⟩))

theorem afterAll_persists_later :
    (numberScript.after (.declareConstant "n" .bool)).lookup "n" = some ⟨0⟩ ∧
    (numberScript.afterAll laterCommands).decl ⟨0⟩ = .ok (.constant "n" .int) ∧
    (numberScript.afterAll laterCommands).sortOf allEqual = .ok .bool ∧
    (∀ id ∈ allEqual.decls, id.index < numberScript.arena.size) ∧
    ∀ width, (numberScript.afterAll laterCommands).printTerm width allEqual =
      numberScript.printTerm width allEqual := by
  obtain ⟨hdecl, _, _, hterms⟩ := afterAll_persists numberScript laterCommands
  obtain ⟨_, hlookup, _⟩ := afterAll_persists numberScript [.declareConstant "n" .bool]
  have hids : ∀ id ∈ allEqual.decls, id.index < numberScript.arena.size := by decide
  exact ⟨hlookup "n" ⟨0⟩ rfl, hdecl ⟨0⟩ _ rfl, (hterms allEqual).1 .bool rfl, hids,
    (hterms allEqual).2 hids⟩

end Script

end TupleLogic
