import TupleLogic.Proofs.Printability
import TupleLogic.Proofs.ScriptReading

/-! Reading undoes printing. A script is readable if its sorts are well-formed
and declared, its operators have legal operands, its names can be written, and
every name leads back to the declaration that it is the name of. The text of a
readable script is read as that script, up to the positions of declarations. -/

namespace TupleLogic.Script

open TupleLogic.Symbol (writable)

variable {s : Script}

/-! ## Texts of legible scripts -/

/-- The text of a legible script is read as what it means by name. -/
theorem read_of_legible {label : String → Bool} (hc : s.Coherent)
    (hs : s.conforms s.legible label = true) {width : Nat} {text : String}
    (h : s.print width = .ok text) :
    ∃ t, read .script text = .ok t ∧ t.Coherent ∧ Corresponds (byName s t) s t ∧
      t.topLevel.Pairwise (fun i j => i.index < j.index) ∧
      t.assertions.map (·.name) = s.assertions.map (fun a => a.name.bind readName) ∧
      t.sorts = s.sorts.map
        fun d => ⟨d.name, d.arity, (reports s.assertions).lookup d.name⟩ := by
  have hfits := wordsFit_of_conforms hc hs
  obtain ⟨t, ht, hspec⟩ := ofSExprs_commandForms hc hs
  refine ⟨t, ?_, hspec⟩
  rw [read, ofText_print hfits h]
  show (Except.mapError _ (SExpr.ofTokens (SExpr.dropNestedComments 0 _)) >>= _) = _
  rw [ofTokens_print hfits h]
  exact ht

/-! ## Names of assertions -/

/-- The name has the form of a reported cardinality. -/
def reportsCardinality (name : String) : Bool :=
  match Text.words name.toList with
  | [w₁, w₂, _, w₃, n] =>
    decide (w₁ = "cardinality".toList ∧ w₂ = "of".toList ∧ w₃ = "is".toList) &&
      (Text.count? n).isSome
  | _ => false

/-- A name that stands in a comment as it is, and is found there again. -/
def isLabel (name : String) : Bool :=
  isOneLine name && decide (Text.trim name.toList = name.toList) && !reportsCardinality name

theorem commentAtom_of_not_reports {name : String} (h : reportsCardinality name = false) :
    Token.commentAtom name.toList = .comment name := by
  unfold Token.commentAtom
  split
  · rename_i w₁ w₂ sort w₃ n hwords
    rw [reportsCardinality, hwords] at h
    change (decide _ && (Text.count? n).isSome) = false at h
    by_cases hform : w₁ = "cardinality".toList ∧ w₂ = "of".toList ∧ w₃ = "is".toList
    · rw [decide_eq_true hform, Bool.true_and, Option.isSome_eq_false_iff,
        Option.isNone_iff_eq_none] at h
      rw [if_pos hform, h, String.ofList_toList]
    · rw [if_neg hform, String.ofList_toList]
  · rw [String.ofList_toList]

theorem heard_eq_comment {name : String} (htrim : Text.trim name.toList = name.toList)
    (hreport : reportsCardinality name = false) : heard name = .comment name := by
  have hblank : Text.trim (' ' :: name.toList) = Text.trim name.toList := rfl
  rw [heard, hblank, htrim, commentAtom_of_not_reports hreport]

theorem heard_of_isLabel {name : String} (h : isLabel name = true) : heard name = .comment name := by
  simp only [isLabel, Bool.and_eq_true, decide_eq_true_eq, Bool.not_eq_true'] at h
  exact heard_eq_comment h.1.2 h.2

section Heard

variable {as : List Assertion}

theorem bind_readName_of_heard (h : ∀ a ∈ as, ∀ n, a.name = some n → heard n = .comment n) :
    as.map (fun a => a.name.bind readName) = as.map (·.name) := by
  refine List.map_congr_left fun a ha => ?_
  cases hname : a.name with
  | none => rfl
  | some n => rw [Option.bind_some, readName, h a ha n hname]

theorem reports_of_heard (h : ∀ a ∈ as, ∀ n, a.name = some n → heard n = .comment n) :
    reports as = [] := by
  rw [reports, List.reverse_eq_nil_iff, List.filterMap_eq_nil_iff]
  intro a ha
  cases hname : a.name with
  | none => rfl
  | some n => rw [Option.bind_some, report?, h a ha n hname]

end Heard

/-! ## Readable scripts -/

/-- Heads of forms that are neither operators nor functions. -/
def reservedHeads : List String := ["ite", "as", "-", "forall", "exists"]

def isSpelling (name : String) : Bool :=
  (UnaryOp.ofSpelling? name).isSome || (BinaryOp.ofSpelling? name).isSome ||
    (NaryOp.ofSpelling? name).isSome

/-- What is read as what it is next to the declarations before `limit`. A
reference is to such a declaration or to a variable that is bound around it,
and its name, resolved innermost first, leads to it. -/
def readableAt (s : Script) (limit : Nat) : Usage where
  name := writable
  sort sort := sort.printable && sort.legible s.declaresSort
  binder id :=
    match s.arena[id.index]? with
    | some (.variable name sort) =>
      writable name && sort.printable && sort.legible s.declaresSort
    | _ => false
  ref bound id := (bound.contains id || s.precedes limit id) && writable (s.nameOf id) &&
    !isLiteral (s.nameOf id) && decide (s.resolve bound (s.nameOf id) = some id)
  call f args := !args.isEmpty && writable f && !isSpelling f && !reservedHeads.contains f &&
    (s.lookup f).any (s.precedes limit)

def readable (s : Script) : Bool := s.conforms s.readableAt isLabel

theorem binder_readableAt {limit : Nat} {id : DeclId}
    (h : (s.readableAt limit).binder id = true) : ∃ name sort,
      s.arena[id.index]? = some (.variable name sort) ∧ writable name = true ∧
        sort.printable = true ∧ sort.legible s.declaresSort = true := by
  simp only [readableAt] at h
  split at h
  · rename_i name sort hd
    simp only [Bool.and_eq_true] at h
    exact ⟨name, sort, hd, h.1.1, h.1.2, h.2⟩
  · cases h

theorem readableAt_printable (s : Script) (limit : Nat) :
    (s.readableAt limit).Implies s.printable (s.readableAt limit).Binds where
  name h := h
  sort h := (Bool.and_eq_true_iff.mp h).1
  binder h := by
    obtain ⟨name, sort, hd, hname, hsort, _⟩ := binder_readableAt h
    simp only [printable, hd, hname, hsort, Bool.and_self]
  ref := by
    intro bound bound' id hbound h
    simp only [readableAt, Bool.and_eq_true, Bool.or_eq_true, List.contains_iff_mem] at h
    obtain ⟨⟨⟨hscope, hname⟩, _⟩, _⟩ := h
    -- the declaration exists, as a bound variable or before the limit
    obtain ⟨d, hd⟩ : ∃ d, s.arena[id.index]? = some d := by
      rcases hscope with hid | hprecedes
      · obtain ⟨name, sort, hd, _⟩ := binder_readableAt (hbound.2 id hid)
        exact ⟨_, hd⟩
      · cases hd : s.arena[id.index]? with
        | none => simp [precedes, hd] at hprecedes
        | some d => exact ⟨d, rfl⟩
    rw [nameOf_eq hd] at hname
    simp [printable, hd, hname]
  call h := by
    simp only [readableAt, Bool.and_eq_true] at h
    exact h.1.1.1.2
  closed := Usage.binds_nil _
  enter := Usage.Binds.enter

theorem readableAt_faithful (s : Script) (limit : Nat) :
    (s.readableAt limit).Implies s.faithful (s.readableAt limit).Binds where
  name _ := rfl
  sort _ := rfl
  binder _ := rfl
  ref := by
    intro bound bound' id hbound h
    simp only [readableAt, Bool.and_eq_true] at h
    rw [← hbound.1]
    simp only [faithful, Bool.and_eq_true]
    exact ⟨h.1.2, h.2⟩
  call _ := rfl
  closed := Usage.binds_nil _
  enter := Usage.Binds.enter

theorem readableAt_legible (s : Script) (limit : Nat) :
    (s.readableAt limit).Implies (s.legible limit) (s.readableAt limit).Binds where
  name _ := rfl
  sort h := (Bool.and_eq_true_iff.mp h).2
  binder h := by
    obtain ⟨name, sort, hd, _, _, hsort⟩ := binder_readableAt h
    simp only [legible, hd, hsort]
  ref := by
    intro bound bound' id hbound h
    simp only [readableAt, Bool.and_eq_true, Bool.or_eq_true, List.contains_iff_mem,
      decide_eq_true_eq] at h
    obtain ⟨⟨⟨hscope, _⟩, _⟩, hresolve⟩ := h
    rw [← hbound.1]
    simp only [legible, Bool.or_eq_true, List.any_eq_true, decide_eq_true_eq, Option.any_eq_true]
    by_cases hid : id ∈ bound
    · exact .inl (.inr ⟨id, hid, rfl⟩)
    · have hnone : bound.find? (fun b => s.nameOf b = s.nameOf id) = none := by
        rw [resolve] at hresolve
        split at hresolve
        · rename_i b hb
          obtain rfl := Option.some.inj hresolve
          exact absurd (List.mem_of_find?_eq_some hb) hid
        · assumption
      rw [resolve, hnone] at hresolve
      exact .inr ⟨id, hresolve, hscope.resolve_left hid⟩
  call := by
    intro f args h
    simp only [readableAt, reservedHeads, Bool.and_eq_true, Bool.not_eq_true', List.isEmpty_eq_false_iff,
      List.contains_eq_mem, List.mem_cons, decide_eq_false_iff_not, not_or] at h
    obtain ⟨⟨⟨⟨hne, _⟩, hspelling⟩, hite, has, hminus, hforall, hexists, _⟩, hlookup⟩ := h
    have hquantifier : Quantifier.ofSpelling? f = none := by
      simp [Quantifier.ofSpelling?, Quantifier.values, Quantifier.spelling, Ne.symm hforall,
        Ne.symm hexists]
    have happlied : applied f (args.map Term.shape) = true :=
      Reader.applied_operator (by simpa using hne) hminus has hite hquantifier
    have hoperator : isOperator f = false := by
      simp only [isSpelling, Bool.or_eq_false_iff, Option.isSome_eq_false_iff,
        Option.isNone_iff_eq_none] at hspelling
      simp [isOperator, hspelling]
    simp only [legible, happlied, hoperator, hlookup, Bool.not_false, Bool.and_self]
  closed := Usage.binds_nil _
  enter := Usage.Binds.enter

/-- A readable script has a text on every page, and the text is read as a
script that is the same up to the positions of declarations. Cardinalities are
not printed. -/
theorem read_print_alphaEquivalent {s : Script} (hs : s.Built) (hr : s.readable = true)
    (width : Nat) : ∃ text t, s.print width = .ok text ∧ read .script text = .ok t ∧
      s.AlphaEquivalent t ∧ t.assertions.map (·.name) = s.assertions.map (·.name) ∧
      t.sorts = s.sorts.map fun d => { d with cardinality := none } := by
  have hc := hs.coherent
  have hlabels : ∀ a ∈ s.assertions, ∀ n, a.name = some n → heard n = .comment n :=
    fun a ha n hn => heard_of_isLabel (((conforms_iff.mp hr).2.2 a ha).1 n hn)
  have honeLine : ∀ n, isLabel n = true → isOneLine n = true := fun n hn => by
    simp only [isLabel, Bool.and_eq_true] at hn
    exact hn.1.1
  have hprintable : s.conforms (fun _ => s.printable) isOneLine = true :=
    conforms_mono (readableAt_printable s) honeLine hr
  have hlegible := conforms_mono (readableAt_legible s) (fun _ h => h) hr
  have hfaithful := conforms_mono (readableAt_faithful s) (fun _ h => h) hr
  obtain ⟨text, htext⟩ := print_of_printable hprintable width
  obtain ⟨t, ht, htc, hcorr, _, hnames, hsorts⟩ := read_of_legible hc hlegible htext
  refine ⟨text, t, htext, ht, alphaEquivalent_of_byName htc hfaithful hcorr, ?_, ?_⟩
  · rw [hnames, bind_readName_of_heard hlabels]
  · rw [hsorts, reports_of_heard hlabels]
    rfl

/-- Variables that hide one another, next to names that need bars. -/
def shadowing : Script where
  sorts := [⟨"S", 0, some 2⟩]
  arena := #[.function "f g" [.named "S"] .int, .constant "forall" (.named "S"),
    .variable "x" (.named "S"), .definition "p" [⟨2⟩] .bool (.binary .eq (.ref ⟨2⟩) (.ref ⟨1⟩)),
    .variable "x" (.named "S"), .variable "x" .int]
  functions := [⟨0⟩]
  constants := [⟨1⟩]
  definitions := [⟨3⟩]
  index := [("p", ⟨3⟩), ("forall", ⟨1⟩), ("f g", ⟨0⟩)]
  assertions := [⟨some "all x; (some x)", .quantified .all [⟨4⟩] (.nary .and
    [.call "p" [.ref ⟨4⟩], .quantified .exist [⟨5⟩] (.binary .lt (.ref ⟨5⟩) (.int (-3))),
      .binary .le (.int 0) (.call "f g" [.ref ⟨4⟩])])⟩]

theorem built_shadowing : shadowing.Built := by
  have h₁ := Built.declareSort .empty (show empty.declareSort "S" 0 = .ok _ from rfl)
  have h₂ := h₁.setCardinality (show setCardinality _ "S" 2 = .ok _ from rfl)
  have h₃ := h₂.declareFunction
    (show declareFunction _ "f g" [.named "S"] .int = .ok (_, _) from rfl)
  have h₄ := h₃.declareConstant (show declareConstant _ "forall" (.named "S") = .ok (_, _) from rfl)
  have h₅ := (h₄.addVariable "x" (.named "S")).defineFunction
    (show defineFunction _ "p" [⟨2⟩] .bool (.binary .eq (.ref ⟨2⟩) (.ref ⟨1⟩)) = .ok (_, _) from rfl)
  exact ((h₅.addVariable "x" (.named "S")).addVariable "x" .int).addAssertion _ _

theorem read_print_alphaEquivalent_shadowing : shadowing.Built ∧ shadowing.readable = true ∧
    ∃ text t, shadowing.print 20 = .ok text ∧ read .script text = .ok t ∧
      shadowing.AlphaEquivalent t ∧ t.assertions.map (·.name) = [some "all x; (some x)"] ∧
      t.sorts = [⟨"S", 0, none⟩] := by
  have hreadable : shadowing.readable = true := by decide +kernel
  exact ⟨built_shadowing, hreadable, read_print_alphaEquivalent built_shadowing hreadable 20⟩

end TupleLogic.Script
