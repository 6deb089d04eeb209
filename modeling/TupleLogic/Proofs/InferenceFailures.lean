import TupleLogic.Proofs.Commands
import TupleLogic.Proofs.SortAgreement

/-! How inference fails. It asks for the sorts of some operands in turn, and the first
that has none is the reason why the term has none. A term over existing declarations
whose operands have sorts fails only because an argument is malformed, with one
exception: a join looks for the columns that meet once both sides together have more
than two, and a side without columns has none. Sorts that are well formed leave no room
for that. -/

namespace TupleLogic

/-- Fails only because an argument is malformed. -/
def Careful {α : Type} (r : Except TermError α) : Prop :=
  ∀ e, r = .error e → ∃ cause, e = .malformed cause

section Careful

variable {α β : Type}

theorem careful_ok {a : α} : Careful (.ok a) := by
  intro e h
  cases h

theorem careful_malformed {cause : Malformed} : Careful (α := α) (.error (.malformed cause)) := by
  intro e h
  cases h
  exact ⟨cause, rfl⟩

theorem careful_ite {c : Prop} [Decidable c] {a : α} {cause : Malformed} :
    Careful (if c then .error (.malformed cause) else .ok a) := by
  split
  · exact careful_malformed
  · exact careful_ok

theorem Careful.bind {r : Except TermError α} {f : α → Except TermError β} (hr : Careful r)
    (hf : ∀ a, r = .ok a → Careful (f a)) : Careful (r >>= f) := by
  cases r with
  | error e =>
    obtain ⟨cause, rfl⟩ := hr e rfl
    exact careful_malformed
  | ok a => exact hf a rfl

theorem bind_error {x : Except TermError α} {f : α → Except TermError β} {e : TermError}
    (h : x = .error e) : x >>= f = .error e := by
  rw [h]
  rfl

end Careful

/-! ## Operators -/

namespace TermSort

variable {sort l r : TermSort} {cs ds : List TermSort}

theorem careful_mkRelation : Careful (mkRelation cs) :=
  careful_ite.bind fun _ _ => careful_ite

theorem careful_columnsFor {op : RelationOp} : Careful (sort.columnsFor op) := by
  unfold columnsFor
  split
  · exact careful_ok
  · exact careful_malformed

theorem careful_transposed : Careful sort.transposed :=
  careful_columnsFor.bind fun _ _ => careful_mkRelation

theorem careful_closed : Careful sort.closed := by
  refine careful_columnsFor.bind fun cs _ => ?_
  split
  · split
    · exact careful_ok
    · exact careful_malformed
  · exact careful_malformed

theorem careful_multiplied : Careful (l.multiplied r) :=
  careful_columnsFor.bind fun _ _ => careful_columnsFor.bind fun _ _ => careful_mkRelation

theorem careful_selected {column : Int} : Careful (sort.selected column) := by
  unfold selected
  split
  · split
    · exact careful_ok
    · exact careful_malformed
  · exact careful_malformed

theorem columnsFor_eq_ok {op : RelationOp} : l.columnsFor op = .ok cs ↔ l = .set (.tuple cs) := by
  unfold columnsFor
  split
  · simp
  · rename_i hne
    exact ⟨fun h => (by cases h), fun h => absurd h (hne cs)⟩

/-- No columns on one side, and enough on the other for both to be looked at. -/
def Lopsided (cs ds : List TermSort) : Prop :=
  cs = [] ∧ 2 < ds.length ∨ ds = [] ∧ 2 < cs.length

theorem joined_lopsided (h : Lopsided cs ds) :
    joined (.set (.tuple cs)) (.set (.tuple ds)) = .error .missingColumn := by
  have hlen : ¬ cs.length + ds.length ≤ 2 := by
    rcases h with ⟨rfl, h⟩ | ⟨rfl, h⟩ <;> simp only [List.length_nil] <;> omega
  simp only [joined, columnsFor, bind, Except.bind, hlen, if_false]
  rcases h with ⟨rfl, _⟩ | ⟨rfl, _⟩
  · rfl
  · cases cs.getLast? <;> rfl

/-- Nothing else is amiss with a join than what it says. -/
theorem careful_joined (h : ∀ cs ds, l = .set (.tuple cs) → r = .set (.tuple ds) →
    ¬ Lopsided cs ds) : Careful (l.joined r) := by
  refine careful_columnsFor.bind fun cs hcs => careful_columnsFor.bind fun ds hds => ?_
  have hside := h cs ds (columnsFor_eq_ok.mp hcs) (columnsFor_eq_ok.mp hds)
  dsimp only
  split
  · exact careful_malformed
  · rename_i hlen
    have hcs : cs ≠ [] := by
      rintro rfl
      exact hside (.inl ⟨rfl, by simpa using hlen⟩)
    have hds : ds ≠ [] := by
      rintro rfl
      exact hside (.inr ⟨rfl, by simpa using hlen⟩)
    rw [List.getLast?_eq_some_getLast hcs, List.head?_eq_some_head hds]
    dsimp only
    split
    · exact careful_mkRelation
    · exact careful_malformed

end TermSort

/-! ## Operands -/

namespace Term

/-- The operands whose sorts are asked for, in this order. -/
def consulted : Term → List Term
  | .ref _ | .int _ | .bool _ | .emptySet _ | .fullSet _ | .quantified _ _ _ | .call _ _ => []
  | .unary op a => match op with
    | .not => []
    | .singleton | .transpose | .closure | .complement => [a]
  | .binary op a b => match op with
    | .implies | .eq | .member | .subset | .lt | .le | .gt | .ge => []
    | .union | .intersection | .difference | .join | .product => [a, b]
    | .select => match a with
      | .int _ => [b]
      | _ => []
  | .nary op args => match op with
    | .and | .or | .distinct => []
    | .tuple => args
    | .insert => args.getLast?.toList
  | .ite _ a _ => [a]

theorem declsList_eq (ts : List Term) : declsList ts = ts.flatMap decls := by
  induction ts with
  | nil => rw [declsList, List.flatMap_nil]
  | cons t ts ih => rw [declsList, ih, List.flatMap_cons]

theorem literalSortsAll_eq (ts : List Term) : literalSortsAll ts = ts.flatMap literalSorts := by
  induction ts with
  | nil => rw [literalSortsAll, List.flatMap_nil]
  | cons t ts ih => rw [literalSortsAll, ih, List.flatMap_cons]

theorem mem_consulted_unary {op : UnaryOp} {a b : Term} (h : a ∈ (Term.unary op b).consulted) :
    a = b := by
  cases op <;> simp_all [consulted]

theorem mem_consulted_binary {op : BinaryOp} {a b c : Term}
    (h : a ∈ (Term.binary op b c).consulted) : a = b ∨ a = c := by
  cases op with
  | select => cases b <;> simp_all [consulted]
  | _ => simp_all [consulted]

theorem mem_consulted_nary {op : NaryOp} {a : Term} {args : List Term}
    (h : a ∈ (Term.nary op args).consulted) : a ∈ args := by
  cases op with
  | insert => exact List.mem_of_getLast? (Option.mem_toList.mp h)
  | _ => simp_all [consulted]

/-- They are parts of the term, and mention nothing that it does not. -/
theorem consulted_within {t a : Term} (h : a ∈ t.consulted) :
    sizeOf a < sizeOf t ∧ a.decls ⊆ t.decls ∧ a.literalSorts ⊆ t.literalSorts := by
  cases t with
  | ref _ | int _ | bool _ | emptySet _ | fullSet _ | quantified _ _ _ | call _ _ => cases h
  | unary op b =>
    obtain rfl := mem_consulted_unary h
    refine ⟨?_, List.Subset.refl _, List.Subset.refl _⟩
    simp only [Term.unary.sizeOf_spec]
    omega
  | binary op b c =>
    obtain rfl | rfl := mem_consulted_binary h
    · refine ⟨?_, List.subset_append_left _ _, List.subset_append_left _ _⟩
      simp only [Term.binary.sizeOf_spec]
      omega
    · refine ⟨?_, List.subset_append_right _ _, List.subset_append_right _ _⟩
      simp only [Term.binary.sizeOf_spec]
      omega
  | nary op args =>
    have hargs := mem_consulted_nary h
    refine ⟨?_, fun id hid => ?_, fun l hl => ?_⟩
    · have := List.sizeOf_lt_of_mem hargs
      simp only [Term.nary.sizeOf_spec]
      omega
    · rw [decls, declsList_eq]
      exact List.mem_flatMap.mpr ⟨a, hargs, hid⟩
    · rw [literalSorts, literalSortsAll_eq]
      exact List.mem_flatMap.mpr ⟨a, hargs, hl⟩
  | ite c b d =>
    obtain rfl := List.mem_singleton.mp h
    refine ⟨?_, ?_, ?_⟩
    · simp only [Term.ite.sizeOf_spec]
      omega
    · exact List.subset_append_of_subset_left _ (List.subset_append_right _ _)
    · exact List.subset_append_of_subset_left _ (List.subset_append_right _ _)

end Term

namespace Script

variable {s : Script} {t : Term} {ts : List Term} {e : TermError}

theorem sortsOf_cons_error {a : Term} : s.sortsOf (a :: ts) = .error e ↔
    s.sortOf a = .error e ∨ (∃ sort, s.sortOf a = .ok sort) ∧ s.sortsOf ts = .error e := by
  rw [sortsOf]
  cases s.sortOf a with
  | error e' => simp [bind, Except.bind]
  | ok sort => cases s.sortsOf ts <;> simp [bind, Except.bind, pure, Except.pure]

/-- The first term without a sort is the reason why there are no sorts. -/
theorem sortsOf_error_iff : s.sortsOf ts = .error e ↔ ∃ before a after, ts = before ++ a :: after ∧
    (∀ b ∈ before, ∃ sort, s.sortOf b = .ok sort) ∧ s.sortOf a = .error e := by
  induction ts with
  | nil => simp [sortsOf]
  | cons b ts ih =>
    rw [sortsOf_cons_error, ih]
    constructor
    · rintro (hb | ⟨hb, before, a, after, rfl, hbefore, ha⟩)
      · exact ⟨[], b, ts, rfl, List.forall_mem_nil _, hb⟩
      · exact ⟨b :: before, a, after, rfl, List.forall_mem_cons.mpr ⟨hb, hbefore⟩, ha⟩
    · rintro ⟨_ | ⟨c, before⟩, a, after, heq, hbefore, ha⟩
      · obtain ⟨rfl, rfl⟩ := List.cons.inj heq
        exact .inl ha
      · obtain ⟨rfl, rfl⟩ := List.cons.inj heq
        obtain ⟨hc, hbefore⟩ := List.forall_mem_cons.mp hbefore
        exact .inr ⟨hc, before, a, after, rfl, hbefore, ha⟩

theorem sortsOf_singleton_error {a : Term} :
    s.sortsOf [a] = .error e ↔ s.sortOf a = .error e := by
  rw [sortsOf_cons_error]
  simp [sortsOf]

theorem sortsOf_ok_forall {sorts : List TermSort} (h : s.sortsOf ts = .ok sorts) :
    ∀ a ∈ ts, ∃ sort, s.sortOf a = .ok sort := by
  induction ts generalizing sorts with
  | nil => exact List.forall_mem_nil _
  | cons a ts ih =>
    rw [sortsOf] at h
    obtain ⟨sort, ha, h⟩ := bind_eq_ok.mp h
    obtain ⟨rest, hrest, _⟩ := bind_eq_ok.mp h
    exact List.forall_mem_cons.mpr ⟨⟨sort, ha⟩, ih hrest⟩

theorem sortOfLast_eq (s : Script) (ts : List Term) : s.sortOfLast ts =
    match ts.getLast? with
    | some a => s.sortOf a
    | none => .error (.malformed .insertWithoutSet) := by
  induction ts with
  | nil =>
    rw [sortOfLast]
    rfl
  | cons a ts ih =>
    rw [sortOfLast]
    cases ts with
    | nil => rfl
    | cons b ts => exact ih

/-- A term fails as the first of its operands does. -/
theorem sortOf_of_consulted (h : s.sortsOf t.consulted = .error e) : s.sortOf t = .error e := by
  cases t with
  | ref _ | int _ | bool _ | emptySet _ | fullSet _ | quantified _ _ _ | call _ _ =>
    rw [Term.consulted, sortsOf] at h
    cases h
  | unary op a =>
    cases op with
    | not =>
      rw [Term.consulted, sortsOf] at h
      cases h
    | singleton | transpose | closure =>
      rw [sortOf]
      exact bind_error (sortsOf_singleton_error.mp h)
    | complement =>
      rw [sortOf]
      exact sortsOf_singleton_error.mp h
  | binary op a b =>
    cases op with
    | implies | eq | member | subset | lt | le | gt | ge =>
      rw [Term.consulted, sortsOf] at h
      cases h
    | union | intersection | difference | join | product =>
      rw [sortOf]
      rcases sortsOf_cons_error.mp h with ha | ⟨⟨l, ha⟩, hb⟩
      · exact bind_error ha
      · rw [ha]
        exact bind_error (x := s.sortOf b) (sortsOf_singleton_error.mp hb)
    | select =>
      cases a with
      | int column =>
        rw [sortOf]
        exact bind_error (sortsOf_singleton_error.mp h)
      | _ =>
        simp only [Term.consulted, sortsOf] at h
        cases h
  | nary op args =>
    cases op with
    | and | or | distinct =>
      rw [Term.consulted, sortsOf] at h
      cases h
    | tuple =>
      rw [sortOf]
      exact bind_error h
    | insert =>
      rw [sortOf, sortOfLast_eq]
      rw [Term.consulted] at h
      cases hlast : args.getLast? with
      | none =>
        rw [hlast, Option.toList_none, sortsOf] at h
        cases h
      | some a =>
        rw [hlast] at h
        exact sortsOf_singleton_error.mp h
  | ite c a b =>
    rw [sortOf]
    exact sortsOf_singleton_error.mp h

theorem careful_decl {id : DeclId} (h : id.index < s.arena.size) :
    Careful (do return (← s.decl id).sort) := by
  rw [Script.decl, Array.getElem?_eq_getElem h]
  exact careful_ok

theorem careful_sortsOf {args : List Term} (ih : ∀ a ∈ args, Careful (s.sortOf a)) :
    Careful (s.sortsOf args) := by
  intro e he
  obtain ⟨before, a, after, rfl, _, ha⟩ := sortsOf_error_iff.mp he
  exact ih a (by simp) e ha

/-- A term over existing declarations is to blame for nothing but its arguments, unless
its operands are or it is a join. -/
theorem careful_of_consulted (hids : ∀ id ∈ t.decls, id.index < s.arena.size)
    (hindex : ∀ {f id}, s.lookup f = some id → id.index < s.arena.size)
    (hoperands : ∀ a ∈ t.consulted, Careful (s.sortOf a))
    (hjoin : ∀ {a b l r}, t = .binary .join a b → s.sortOf a = .ok l → s.sortOf b = .ok r →
      Careful (l.joined r)) : Careful (s.sortOf t) := by
  cases t with
  | ref id =>
    rw [sortOf]
    exact careful_decl (hids id (List.mem_singleton.mpr rfl))
  | int _ | bool _ | quantified _ _ _ =>
    rw [sortOf]
    exact careful_ok
  | emptySet _ | fullSet _ =>
    rw [sortOf]
    split
    · exact careful_ok
    · exact careful_malformed
  | unary op a =>
    cases op with
    | not =>
      rw [sortOf]
      exact careful_ok
    | singleton =>
      rw [sortOf]
      exact (hoperands a List.mem_cons_self).bind fun _ _ => careful_ite
    | transpose =>
      rw [sortOf]
      exact (hoperands a List.mem_cons_self).bind fun _ _ => TermSort.careful_transposed
    | closure =>
      rw [sortOf]
      exact (hoperands a List.mem_cons_self).bind fun _ _ => TermSort.careful_closed
    | complement =>
      rw [sortOf]
      exact hoperands a List.mem_cons_self
  | binary op a b =>
    cases op with
    | implies | eq | member | subset | lt | le | gt | ge =>
      rw [sortOf]
      exact careful_ok
    | union | intersection | difference =>
      have ha := hoperands a List.mem_cons_self
      have hb := hoperands b (List.mem_cons_of_mem _ List.mem_cons_self)
      rw [sortOf]
      refine ha.bind fun _ _ => hb.bind fun _ _ => ?_
      split
      · exact careful_ok
      · exact careful_malformed
    | join =>
      have ha := hoperands a List.mem_cons_self
      have hb := hoperands b (List.mem_cons_of_mem _ List.mem_cons_self)
      rw [sortOf]
      exact ha.bind fun _ hl => hb.bind fun _ hr => hjoin rfl hl hr
    | product =>
      have ha := hoperands a List.mem_cons_self
      have hb := hoperands b (List.mem_cons_of_mem _ List.mem_cons_self)
      rw [sortOf]
      exact ha.bind fun _ _ => hb.bind fun _ _ => TermSort.careful_multiplied
    | select =>
      cases a with
      | int column =>
        rw [sortOf]
        exact (hoperands b List.mem_cons_self).bind fun _ _ => TermSort.careful_selected
      | _ =>
        simp only [sortOf]
        exact careful_malformed
  | nary op args =>
    cases op with
    | and | or | distinct =>
      rw [sortOf]
      exact careful_ok
    | tuple =>
      rw [sortOf]
      exact (careful_sortsOf hoperands).bind fun _ _ => careful_ite
    | insert =>
      -- nothing but the last operand is asked for its sort
      rw [sortOf, sortOfLast_eq]
      rw [Term.consulted] at hoperands
      cases hlast : args.getLast? with
      | none => exact careful_malformed
      | some a =>
        rw [hlast] at hoperands
        exact hoperands a List.mem_cons_self
  | ite c a b =>
    rw [sortOf]
    exact hoperands a List.mem_cons_self
  | call f args =>
    rw [sortOf]
    split
    · rename_i id hid
      exact careful_decl (hindex hid)
    · exact careful_malformed

/-! ## Joins that find no column -/

/-- Inference comes to a join, all that it asked for before having a sort, of which one
side has no columns while the other has more than two. -/
inductive Stuck (s : Script) : Term → Prop
  | join {a b cs ds} : s.sortOf a = .ok (.set (.tuple cs)) → s.sortOf b = .ok (.set (.tuple ds)) →
      TermSort.Lopsided cs ds → Stuck s (.binary .join a b)
  | operand {t before a after} : t.consulted = before ++ a :: after →
      (∀ b ∈ before, ∃ sort, s.sortOf b = .ok sort) → Stuck s a → Stuck s t

theorem Stuck.missingColumn (h : s.Stuck t) : s.sortOf t = .error .missingColumn := by
  induction h with
  | join ha hb hside =>
    rw [sortOf, ha, hb]
    exact TermSort.joined_lopsided hside
  | operand hsplit hbefore _ ih =>
    exact sortOf_of_consulted (sortsOf_error_iff.mpr ⟨_, _, _, hsplit, hbefore, ih⟩)

/-- Nothing else can happen to a term over existing declarations. -/
theorem careful_of_not_stuck (hindex : ∀ {f id}, s.lookup f = some id → id.index < s.arena.size) :
    ∀ {t : Term}, (∀ id ∈ t.decls, id.index < s.arena.size) → ¬ s.Stuck t →
      Careful (s.sortOf t) := by
  intro t hids hstuck
  cases hsorts : s.sortsOf t.consulted with
  | error e =>
    obtain ⟨before, a, after, hsplit, hbefore, ha⟩ := sortsOf_error_iff.mp hsorts
    have hmem : a ∈ t.consulted := by simp [hsplit]
    obtain ⟨hsize, hdecls, _⟩ := Term.consulted_within hmem
    have hcareful := careful_of_not_stuck hindex (t := a) (fun id hid => hids id (hdecls hid))
      fun h => hstuck (.operand hsplit hbefore h)
    obtain ⟨cause, rfl⟩ := hcareful e ha
    rw [sortOf_of_consulted hsorts]
    exact careful_malformed
  | ok sorts =>
    have hok := sortsOf_ok_forall hsorts
    refine careful_of_consulted hids hindex (fun a ha => ?_) fun {a b l r} heq hl hr => ?_
    · obtain ⟨sort, hsort⟩ := hok a ha
      rw [hsort]
      exact careful_ok
    · subst heq
      refine TermSort.careful_joined fun cs ds hcs hds hside => hstuck ?_
      exact .join (hcs ▸ hl) (hds ▸ hr) hside
termination_by t => sizeOf t

/-- Well-formed sorts have columns. -/
theorem not_stuck_of_wellFormed (hdecls : ∀ d ∈ s.arena, d.sort.wellFormed = true)
    (hliterals : ∀ l ∈ t.literalSorts, l.wellFormed = true) : ¬ s.Stuck t := by
  intro h
  induction h with
  | @join a b cs ds ha hb hside =>
    obtain ⟨hla, hlb⟩ := List.forall_mem_append.mp hliterals
    have hcs := known_of_sortOf hdecls hla ha
    have hds := known_of_sortOf hdecls hlb hb
    simp only [TermSort.known, Bool.and_eq_true, Bool.not_eq_true', List.isEmpty_eq_false_iff]
      at hcs hds
    rcases hside with ⟨rfl, _⟩ | ⟨rfl, _⟩
    · exact hcs.2.1 rfl
    · exact hds.2.1 rfl
  | @operand t before a after hsplit _ _ ih =>
    have hmem : a ∈ t.consulted := by simp [hsplit]
    exact ih fun l hl => hliterals l ((Term.consulted_within hmem).2.2 hl)

theorem Coherent.lookup_lt (h : s.Coherent) {f : String} {id : DeclId} (hf : s.lookup f = some id) :
    id.index < s.arena.size := by
  obtain ⟨d, hd, _⟩ := h.lookup.mp hf
  exact (Array.getElem?_eq_some_iff.mp hd).1

/-- In a script that commands made, a term that mentions nothing but what is declared has a
sort or a malformed argument, unless inference gets stuck at a join, which is the only
way to find a column missing. It never does where all sorts are well formed. -/
theorem sortOf_stuck_iff (hs : s.Built) (hids : ∀ id ∈ t.decls, id.index < s.arena.size) :
    (((∃ sort, s.sortOf t = .ok sort) ∨ ∃ cause, s.sortOf t = .error (.malformed cause)) ↔
      ¬ s.Stuck t) ∧
    (s.sortOf t = .error .missingColumn ↔ s.Stuck t) ∧
    ((∀ d ∈ s.arena, d.sort.wellFormed = true) → (∀ l ∈ t.literalSorts, l.wellFormed = true) →
      ¬ s.Stuck t) := by
  have hcareful := careful_of_not_stuck hs.coherent.lookup_lt hids
  refine ⟨⟨fun h hstuck => ?_, fun hstuck => ?_⟩, ⟨fun h => ?_, Stuck.missingColumn⟩,
    not_stuck_of_wellFormed⟩
  · have hmissing := hstuck.missingColumn
    rcases h with ⟨sort, h⟩ | ⟨cause, h⟩ <;> rw [h] at hmissing <;> cases hmissing
  · cases hsort : s.sortOf t with
    | ok sort => exact .inl ⟨sort, rfl⟩
    | error e =>
      obtain ⟨cause, rfl⟩ := hcareful hstuck e hsort
      exact .inr ⟨cause, rfl⟩
  · by_contra hstuck
    obtain ⟨cause, hcause⟩ := hcareful hstuck _ h
    cases hcause

/-- A relation with three columns. -/
def ternaryScript : Script where
  arena := #[.constant "r" (.set (.tuple [.int, .int, .int]))]
  constants := [⟨0⟩]
  index := [("r", ⟨0⟩)]

/-- The join of no columns with three of them. -/
def joinWithNothing : Term := .binary .join (.emptySet (.set (.tuple []))) (.ref ⟨0⟩)

/-- The same inside of a union, whose other side has a sort. -/
def unionWithNothing : Term := .binary .union (.ref ⟨0⟩) joinWithNothing

theorem built_ternaryScript : ternaryScript.Built := by
  have h : empty.declareConstant "r" (.set (.tuple [.int, .int, .int])) =
      .ok (⟨0⟩, ternaryScript) := rfl
  exact .declareConstant .empty h

theorem stuck_unionWithNothing : ternaryScript.Stuck unionWithNothing := by
  have hset : ternaryScript.sortOf (.emptySet (.set (.tuple []))) = .ok (.set (.tuple [])) := rfl
  have href : ternaryScript.sortOf (.ref ⟨0⟩) = .ok (.set (.tuple [.int, .int, .int])) := rfl
  have hsplit : unionWithNothing.consulted = [.ref ⟨0⟩] ++ joinWithNothing :: [] := rfl
  refine .operand hsplit (List.forall_mem_singleton.mpr ⟨_, href⟩) ?_
  exact .join hset href (.inl ⟨rfl, by decide⟩)

theorem sortOf_stuck_iff_ternary :
    (ternaryScript.Built ∧ (∀ id ∈ unionWithNothing.decls, id.index < ternaryScript.arena.size) ∧
      ternaryScript.sortOf unionWithNothing = .error .missingColumn) ∧
    ((∃ sort, ternaryScript.sortOf (.binary .join (.ref ⟨0⟩) (.ref ⟨0⟩)) = .ok sort) ∨
      ∃ cause, ternaryScript.sortOf (.binary .join (.ref ⟨0⟩) (.ref ⟨0⟩)) =
        .error (.malformed cause)) := by
  have hids : ∀ id ∈ unionWithNothing.decls, id.index < ternaryScript.arena.size := by decide
  obtain ⟨_, hmissing, _⟩ := sortOf_stuck_iff built_ternaryScript hids
  obtain ⟨hanswers, _, hwell⟩ := sortOf_stuck_iff (t := .binary .join (.ref ⟨0⟩) (.ref ⟨0⟩))
    built_ternaryScript (by decide)
  refine ⟨⟨built_ternaryScript, hids, hmissing.mpr stuck_unionWithNothing⟩,
    hanswers.mpr (hwell ?_ (List.forall_mem_nil _))⟩
  intro d hd
  simp only [ternaryScript, Array.mem_def, List.mem_singleton] at hd
  rw [hd]
  rfl

end Script

end TupleLogic
