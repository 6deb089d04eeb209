import TupleLogic.Proofs.Conformance

/-! Printable scripts: those that have a text on every page. Names must be
possible between bars, sorts must be known to solvers, and the name of an
assertion must fit on one line. -/

namespace TupleLogic

/-- A name that can stand between bars. -/
def Symbol.writable (name : String) : Bool := name.toList.all isQuotable

theorem Symbol.spell_of_writable {name : String} (h : writable name = true) :
    ∃ text, spell name = .ok text := by
  rw [writable] at h
  rw [spell, if_pos h]
  split
  · exact ⟨name, rfl⟩
  · exact ⟨_, rfl⟩

open TupleLogic.Symbol (writable)

namespace TermSort

mutual
/-- A sort that can be written down; sets of sets can. -/
def printable : TermSort → Bool
  | .named n => writable n
  | .set e => e.printable
  | .tuple cs => !cs.isEmpty && printableAll cs
  | .int | .bool => true
  | .real | .string => false

def printableAll : List TermSort → Bool
  | [] => true
  | c :: cs => c.printable && printableAll cs
end

theorem printableAll_iff {cs : List TermSort} :
    printableAll cs = true ↔ ∀ c ∈ cs, c.printable = true := by
  induction cs with
  | nil => simp [printableAll]
  | cons c cs ih => rw [printableAll, Bool.and_eq_true, ih, List.forall_mem_cons]

end TermSort

namespace Script

open Layout

/-- What can be printed, wherever it stands. -/
def printable (s : Script) : Usage where
  name := writable
  sort := TermSort.printable
  binder id :=
    match s.arena[id.index]? with
    | some (.variable name sort) => writable name && sort.printable
    | _ => false
  ref _ id := (s.arena[id.index]?).any fun d => writable d.name
  call f _ := writable f

/-- A name that stays on one line. -/
def isOneLine (name : String) : Bool := name.toList.all fun c => c != '\n' && c != '\r'

theorem mapM_of_forall {α β ε : Type} {f : α → Except ε β} {xs : List α}
    (h : ∀ x ∈ xs, ∃ b, f x = .ok b) : ∃ bs, xs.mapM f = .ok bs := by
  induction xs with
  | nil => exact ⟨[], rfl⟩
  | cons x xs ih =>
    rw [List.forall_mem_cons] at h
    obtain ⟨b, hb⟩ := h.1
    obtain ⟨bs, hbs⟩ := ih h.2
    exact ⟨b :: bs, by rw [List.mapM_cons, hb, hbs]; rfl⟩

theorem forall_of_mapM {α β ε : Type} {f : α → Except ε β} {xs : List α} {bs : List β}
    (h : xs.mapM f = .ok bs) : ∀ x ∈ xs, ∃ b, f x = .ok b := by
  induction xs generalizing bs with
  | nil => exact nofun
  | cons x xs ih =>
    rw [List.mapM_cons] at h
    obtain ⟨b, hb, h⟩ := bind_eq_ok.mp h
    obtain ⟨bs, hbs, _⟩ := bind_eq_ok.mp h
    exact List.forall_mem_cons.mpr ⟨⟨b, hb⟩, ih hbs⟩

theorem nameBlock_of_writable {name : String} (h : writable name = true) :
    ∃ b, nameBlock name = .ok b := by
  obtain ⟨text, htext⟩ := Symbol.spell_of_writable h
  exact ⟨_, bind_eq_ok.mpr ⟨text, htext, rfl⟩⟩

mutual
theorem sortBlock_of_printable : ∀ {depth : Nat} {sort : TermSort}, sort.printable = true →
    ∃ b, sortBlock depth sort = .ok b
  | depth, .named n, h => by
    obtain ⟨text, htext⟩ := Symbol.spell_of_writable h
    rw [sortBlock]
    exact ⟨_, bind_eq_ok.mpr ⟨text, htext, rfl⟩⟩
  | depth, .set e, h => by
    rw [TermSort.printable] at h
    obtain ⟨b, hb⟩ := sortBlock_of_printable h
    rw [sortBlock]
    exact ⟨_, bind_eq_ok.mpr ⟨b, hb, rfl⟩⟩
  | depth, .tuple cs, h => by
    rw [TermSort.printable, Bool.and_eq_true] at h
    obtain ⟨bs, hbs⟩ := sortBlocks_of_printable h.2
    rw [sortBlock]
    exact ⟨_, checked_eq_ok.mpr ⟨by simpa using h.1, bind_eq_ok.mpr ⟨bs, hbs, rfl⟩⟩⟩
  | _, .int, _ | _, .bool, _ => by
    rw [sortBlock]
    exact ⟨_, rfl⟩
  | _, .real, h | _, .string, h => by cases h

theorem sortBlocks_of_printable : ∀ {depth : Nat} {sorts : List TermSort},
    TermSort.printableAll sorts = true → ∃ bs, sortBlocks depth sorts = .ok bs
  | _, [], _ => ⟨[], rfl⟩
  | depth, c :: cs, h => by
    rw [TermSort.printableAll, Bool.and_eq_true] at h
    obtain ⟨b, hb⟩ := sortBlock_of_printable h.1
    obtain ⟨bs, hbs⟩ := sortBlocks_of_printable h.2
    rw [sortBlocks]
    exact ⟨_, bind_eq_ok.mpr ⟨b, hb, bind_eq_ok.mpr ⟨bs, hbs, rfl⟩⟩⟩
end

theorem sortsBlock_of_printable {depth : Nat} {sorts : List TermSort}
    (h : TermSort.printableAll sorts = true) : ∃ b, sortsBlock depth sorts = .ok b := by
  obtain ⟨bs, hbs⟩ := sortBlocks_of_printable h
  exact ⟨_, bind_eq_ok.mpr ⟨bs, hbs, rfl⟩⟩

variable {s : Script}

theorem bindingBlock_of_printable {depth : Nat} {id : DeclId} (h : s.printable.binder id = true) :
    ∃ b, s.bindingBlock depth id = .ok b := by
  simp only [printable] at h
  split at h
  · rename_i name sort hd
    rw [Bool.and_eq_true] at h
    obtain ⟨head, hhead⟩ := nameBlock_of_writable h.1
    obtain ⟨b, hb⟩ := sortBlock_of_printable h.2
    exact ⟨_, bind_eq_ok.mpr ⟨_, decl_eq_ok.mpr hd, bind_eq_ok.mpr ⟨head, hhead,
      bind_eq_ok.mpr ⟨b, hb, rfl⟩⟩⟩⟩
  · cases h

theorem bindingsBlock_of_printable {depth : Nat} {ids : List DeclId}
    (h : ∀ id ∈ ids, s.printable.binder id = true) : ∃ b, s.bindingsBlock depth ids = .ok b := by
  obtain ⟨bs, hbs⟩ := mapM_of_forall fun id hid => bindingBlock_of_printable (h id hid)
  exact ⟨_, bind_eq_ok.mpr ⟨bs, hbs, rfl⟩⟩

theorem setLiteralBlock_of_printable {depth : Nat} {literal : String} {sort : TermSort}
    (h : (sort.isSet && s.printable.sort sort) = true) :
    ∃ b, setLiteralBlock depth literal sort = .ok b := by
  rw [Bool.and_eq_true] at h
  obtain ⟨b, hb⟩ := sortBlock_of_printable h.2
  rw [setLiteralBlock]
  exact ⟨_, checked_eq_ok.mpr ⟨by simp [h.1], bind_eq_ok.mpr ⟨b, hb, rfl⟩⟩⟩

theorem selectorBlock_of_isColumn {depth : Nat} {t : Term} (h : t.isColumn = true) :
    ∃ b, selectorBlock depth t = .ok b := by
  unfold Term.isColumn at h
  split at h
  · rw [Bool.and_eq_true, decide_eq_true_eq] at h
    rw [selectorBlock, if_neg (by omega)]
    exact ⟨_, rfl⟩
  · cases h

mutual
theorem termBlock_of_printable : ∀ {depth : Nat} {t : Term} {bound : List DeclId},
    t.conforms s.printable bound = true → ∃ b, s.termBlock depth t = .ok b
  | depth, .ref id, bound, h => by
    rw [Term.conforms] at h
    obtain ⟨d, hd, hname⟩ := Option.any_eq_true _ _ |>.mp h
    obtain ⟨b, hb⟩ := nameBlock_of_writable hname
    rw [termBlock]
    exact ⟨b, bind_eq_ok.mpr ⟨d, decl_eq_ok.mpr hd, hb⟩⟩
  | depth, .int n, bound, _ => ⟨_, rfl⟩
  | depth, .bool b, bound, _ => ⟨_, rfl⟩
  | depth, .emptySet sort, bound, h => by
    rw [Term.conforms] at h
    exact setLiteralBlock_of_printable h
  | depth, .fullSet sort, bound, h => by
    rw [Term.conforms] at h
    exact setLiteralBlock_of_printable h
  | depth, .unary op a, bound, h => by
    rw [Term.conforms] at h
    obtain ⟨b, hb⟩ := termBlock_of_printable h
    rw [termBlock]
    exact ⟨_, bind_eq_ok.mpr ⟨b, hb, rfl⟩⟩
  | depth, .binary op a c, bound, h => by
    rw [Term.conforms, Bool.and_eq_true] at h
    obtain ⟨bc, hbc⟩ := termBlock_of_printable h.2
    rw [termBlock]
    by_cases hop : op = .select
    · rw [if_pos hop] at h ⊢
      obtain ⟨ba, hba⟩ := selectorBlock_of_isColumn h.1
      exact ⟨_, bind_eq_ok.mpr ⟨ba, hba, bind_eq_ok.mpr ⟨bc, hbc, rfl⟩⟩⟩
    · rw [if_neg hop] at h ⊢
      obtain ⟨ba, hba⟩ := termBlock_of_printable h.1
      exact ⟨_, bind_eq_ok.mpr ⟨ba, hba, bind_eq_ok.mpr ⟨bc, hbc, rfl⟩⟩⟩
  | depth, .nary op args, bound, h => by
    rw [Term.conforms, Bool.and_eq_true, decide_eq_true_eq] at h
    obtain ⟨bs, hbs⟩ := termBlocks_of_printable h.2
    have hne : ¬ args.isEmpty = true := by
      rw [List.isEmpty_iff]
      rintro rfl
      cases op <;> simp [NaryOp.fewest] at h
    rw [termBlock]
    exact ⟨_, checked_eq_ok.mpr ⟨hne, bind_eq_ok.mpr ⟨bs, hbs, rfl⟩⟩⟩
  | depth, .quantified q vars body, bound, h => by
    simp only [Term.conforms, Bool.and_eq_true, List.all_eq_true] at h
    obtain ⟨⟨hne, hvars⟩, hbody⟩ := h
    obtain ⟨bvars, hbvars⟩ := bindingsBlock_of_printable hvars
    obtain ⟨b, hb⟩ := termBlock_of_printable hbody
    rw [termBlock]
    exact ⟨_, checked_eq_ok.mpr ⟨by simpa using hne, bind_eq_ok.mpr ⟨bvars, hbvars,
      bind_eq_ok.mpr ⟨b, hb, rfl⟩⟩⟩⟩
  | depth, .ite c a e, bound, h => by
    simp only [Term.conforms, Bool.and_eq_true] at h
    obtain ⟨bc, hbc⟩ := termBlock_of_printable h.1.1
    obtain ⟨ba, hba⟩ := termBlock_of_printable h.1.2
    obtain ⟨be, hbe⟩ := termBlock_of_printable h.2
    rw [termBlock]
    exact ⟨_, bind_eq_ok.mpr ⟨bc, hbc, bind_eq_ok.mpr ⟨ba, hba, bind_eq_ok.mpr ⟨be, hbe, rfl⟩⟩⟩⟩
  | depth, .call f args, bound, h => by
    simp only [Term.conforms, Bool.and_eq_true] at h
    obtain ⟨⟨hf, hne⟩, hargs⟩ := h
    obtain ⟨head, hhead⟩ := nameBlock_of_writable hf
    obtain ⟨bs, hbs⟩ := termBlocks_of_printable hargs
    rw [termBlock]
    refine ⟨.form depth head bs, bind_eq_ok.mpr ⟨head, hhead, ?_⟩⟩
    rw [if_neg (by simpa using hne)]
    exact bind_eq_ok.mpr ⟨bs, hbs, rfl⟩

theorem termBlocks_of_printable : ∀ {depth : Nat} {ts : List Term} {bound : List DeclId},
    Term.conformsAll s.printable bound ts = true → ∃ bs, s.termBlocks depth ts = .ok bs
  | _, [], bound, _ => ⟨[], rfl⟩
  | depth, t :: ts, bound, h => by
    rw [Term.conformsAll, Bool.and_eq_true] at h
    obtain ⟨b, hb⟩ := termBlock_of_printable h.1
    obtain ⟨bs, hbs⟩ := termBlocks_of_printable h.2
    rw [termBlocks]
    exact ⟨_, bind_eq_ok.mpr ⟨b, hb, bind_eq_ok.mpr ⟨bs, hbs, rfl⟩⟩⟩
end

theorem declarationBlock_of_printable : ∀ {d : Declaration}, d.conforms s.printable = true →
    ∃ b, s.declarationBlock d = .ok b
  | .function name inputs output, h => by
    simp only [Declaration.conforms, Bool.and_eq_true, List.all_eq_true] at h
    obtain ⟨head, hhead⟩ := nameBlock_of_writable h.1.1
    obtain ⟨bs, hbs⟩ := sortsBlock_of_printable (TermSort.printableAll_iff.mpr h.1.2)
    obtain ⟨b, hb⟩ := sortBlock_of_printable h.2
    exact ⟨_, bind_eq_ok.mpr ⟨head, hhead, bind_eq_ok.mpr ⟨bs, hbs, bind_eq_ok.mpr ⟨b, hb, rfl⟩⟩⟩⟩
  | .constant name sort, h => by
    simp only [Declaration.conforms, Bool.and_eq_true] at h
    obtain ⟨head, hhead⟩ := nameBlock_of_writable h.1
    obtain ⟨b, hb⟩ := sortBlock_of_printable h.2
    exact ⟨_, bind_eq_ok.mpr ⟨head, hhead, bind_eq_ok.mpr ⟨b, hb, rfl⟩⟩⟩
  | .definition name parameters output body, h => by
    simp only [Declaration.conforms, Bool.and_eq_true, List.all_eq_true] at h
    obtain ⟨⟨⟨hname, hparameters⟩, houtput⟩, hbody⟩ := h
    obtain ⟨head, hhead⟩ := nameBlock_of_writable hname
    obtain ⟨bs, hbs⟩ := bindingsBlock_of_printable hparameters
    obtain ⟨bo, hbo⟩ := sortBlock_of_printable houtput
    obtain ⟨b, hb⟩ := termBlock_of_printable hbody
    exact ⟨_, bind_eq_ok.mpr ⟨head, hhead, bind_eq_ok.mpr ⟨bs, hbs, bind_eq_ok.mpr
      ⟨bo, hbo, bind_eq_ok.mpr ⟨b, hb, rfl⟩⟩⟩⟩⟩

theorem commentBlock_of_isOneLine {name : String} (h : isOneLine name = true) :
    ∃ b, commentBlock name = .ok b := by
  rw [commentBlock, if_neg]
  · exact ⟨_, rfl⟩
  · simp only [isOneLine, List.all_eq_true, Bool.and_eq_true, bne_iff_ne] at h
    simp only [List.any_eq_true, Bool.or_eq_true, decide_eq_true_eq, not_exists, not_and, not_or]
    exact h

theorem assertionBlocks_of_printable {a : Assertion}
    (hname : ∀ n, a.name = some n → isOneLine n = true)
    (h : a.formula.conforms s.printable [] = true) : ∃ bs, s.assertionBlocks a = .ok bs := by
  obtain ⟨name, formula⟩ := a
  obtain ⟨b, hb⟩ := termBlock_of_printable h
  cases name with
  | none => exact ⟨_, bind_eq_ok.mpr ⟨b, hb, rfl⟩⟩
  | some name =>
    obtain ⟨comment, hcomment⟩ := commentBlock_of_isOneLine (hname name rfl)
    exact ⟨_, bind_eq_ok.mpr ⟨b, hb, bind_eq_ok.mpr ⟨comment, hcomment, rfl⟩⟩⟩

/-- A printable script has a text on every page. -/
theorem print_of_printable (h : s.conforms (fun _ => s.printable) isOneLine = true) (width : Nat) :
    ∃ text, s.print width = .ok text := by
  obtain ⟨hsorts, hdecls, hasserts⟩ := conforms_iff.mp h
  obtain ⟨sorts, hsorts⟩ : ∃ bs, s.sorts.mapM sortDeclarationBlock = .ok bs := by
    refine mapM_of_forall fun d hd => ?_
    obtain ⟨text, htext⟩ := Symbol.spell_of_writable (hsorts d hd).1
    exact ⟨_, bind_eq_ok.mpr ⟨text, htext, rfl⟩⟩
  obtain ⟨decls, hdecls⟩ : ∃ bs, s.topLevel.mapM (fun id => do
      s.declarationBlock (← s.decl id)) = .ok bs := by
    refine mapM_of_forall fun id hid => ?_
    obtain ⟨d, hd, hconf⟩ := hdecls id hid
    obtain ⟨b, hb⟩ := declarationBlock_of_printable hconf
    exact ⟨b, bind_eq_ok.mpr ⟨d, decl_eq_ok.mpr hd, hb⟩⟩
  obtain ⟨asserts, hasserts⟩ : ∃ bs, s.assertions.mapM s.assertionBlocks = .ok bs :=
    mapM_of_forall fun a ha => assertionBlocks_of_printable (hasserts a ha).1 (hasserts a ha).2
  exact ⟨_, bind_eq_ok.mpr ⟨_, bind_eq_ok.mpr ⟨sorts, hsorts, bind_eq_ok.mpr ⟨decls, hdecls,
    bind_eq_ok.mpr ⟨asserts, hasserts, rfl⟩⟩⟩, rfl⟩⟩

end Script

end TupleLogic
