import TupleLogic.Proofs.ScriptForms

/-! The structure of printed text. Whatever strings a script has for names, its
text is read as the forms of its commands, so no name opens, splits or swallows
a command; the only comments are the names of assertions, each right before its
assertion, and a narrower page moves blanks and nothing else. -/

namespace TupleLogic

/-- Comments, and reports of cardinalities, which are comments too. -/
def Atom.isRemark : Atom → Bool
  | .comment _ | .cardinality _ _ => true
  | _ => false

def Token.isRemark : Token → Bool
  | .atom a => a.isRemark
  | .opening | .closing => false

theorem Token.isRemark_commentAtom (text : List Char) : (commentAtom text).isRemark = true := by
  unfold commentAtom
  split
  · split
    · split <;> rfl
    · rfl
  · rfl

namespace SExpr

/-- The remarks in s-expressions, from left to right. -/
def remarks (es : List SExpr) : List Token := (tokensAll es).filter Token.isRemark

theorem remarks_append (es fs : List SExpr) : remarks (es ++ fs) = remarks es ++ remarks fs := by
  simp [remarks, tokensAll_append]

theorem remarks_cons (e : SExpr) (es : List SExpr) : remarks (e :: es) = remarks [e] ++ remarks es :=
  remarks_append [e] es

@[simp] theorem remarks_nil : remarks [] = [] := rfl

@[simp] theorem remarks_symbol (name : String) : remarks [.symbol name] = [] := rfl

@[simp] theorem remarks_numeral (n : Nat) : remarks [.numeral n] = [] := rfl

@[simp] theorem remarks_keyword (k : String) : remarks [.atom (.keyword k)] = [] := rfl

@[simp] theorem remarks_list (es : List SExpr) : remarks [.list es] = remarks es := by
  simp [remarks, tokensAll, tokens, Token.isRemark]

theorem remarks_map {α : Type} {f : α → SExpr} {xs : List α} (h : ∀ x ∈ xs, remarks [f x] = []) :
    remarks (xs.map f) = [] := by
  induction xs with
  | nil => rfl
  | cons x xs ih =>
    rw [List.map_cons, remarks_cons, h x List.mem_cons_self,
      ih fun y hy => h y (List.mem_cons_of_mem _ hy), List.nil_append]

end SExpr

open SExpr

mutual
theorem TermSort.remarks_form : ∀ sort : TermSort, remarks [sort.form] = []
  | .named _ | .int | .bool | .real | .string => rfl
  | .set e => by rw [form, remarks_list, remarks_cons, remarks_symbol, remarks_form e]; rfl
  | .tuple cs => by rw [form, remarks_list, remarks_cons, remarks_symbol, remarks_forms cs]; rfl

theorem TermSort.remarks_forms : ∀ sorts : List TermSort, remarks (TermSort.forms sorts) = []
  | [] => rfl
  | c :: cs => by rw [forms, remarks_cons, remarks_form c, remarks_forms cs]; rfl
end

namespace Script

theorem remarks_bindings (s : Script) (ids : List DeclId) :
    remarks [.list (ids.map s.bindingForm)] = [] := by
  rw [remarks_list]
  refine remarks_map fun id _ => ?_
  unfold bindingForm
  split
  · rw [remarks_list, remarks_cons, remarks_symbol, TermSort.remarks_form]
    rfl
  · rfl

theorem remarks_intForm (n : Int) : remarks [intForm n] = [] := by
  unfold intForm
  split <;> rfl

theorem remarks_selectorForm (t : Term) : remarks [selectorForm t] = [] := by
  unfold selectorForm
  split <;> rfl

theorem remarks_setLiteralForm (literal : String) (sort : TermSort) :
    remarks [setLiteralForm literal sort] = [] := by
  rw [setLiteralForm, remarks_list, remarks_cons, remarks_cons (.symbol literal),
    TermSort.remarks_form]
  rfl

mutual
theorem remarks_form (s : Script) : ∀ t : Term, remarks [s.form t] = []
  | .ref _ | .bool _ => rfl
  | .int n => remarks_intForm n
  | .emptySet sort | .fullSet sort => remarks_setLiteralForm _ sort
  | .unary op a => by rw [form, remarks_list, remarks_cons, remarks_form s a]; rfl
  | .binary op a b => by
    rw [form]
    by_cases hop : op = .select
    · rw [if_pos hop, remarks_list, remarks_cons, remarks_selectorForm, remarks_form s b]
      rfl
    · rw [if_neg hop, remarks_list, remarks_cons, remarks_cons (s.form a), remarks_form s a,
        remarks_form s b]
      rfl
  | .nary op args => by rw [form, remarks_list, remarks_cons, remarks_forms s args]; rfl
  | .quantified q vars body => by
    rw [form, remarks_list, remarks_cons, remarks_cons (.list _), remarks_bindings,
      remarks_form s body]
    rfl
  | .ite c a b => by
    rw [form, remarks_list, remarks_cons, remarks_cons (s.form c), remarks_cons (s.form a),
      remarks_form s c, remarks_form s a, remarks_form s b]
    rfl
  | .call f args => by
    rw [form]
    by_cases hargs : args.isEmpty = true
    · rw [if_pos hargs]
      rfl
    · rw [if_neg hargs, remarks_list, remarks_cons, remarks_forms s args]
      rfl

theorem remarks_forms (s : Script) : ∀ ts : List Term, remarks (s.forms ts) = []
  | [] => rfl
  | t :: ts => by rw [forms, remarks_cons, remarks_form s t, remarks_forms s ts]; rfl
end

theorem remarks_declarationForm (s : Script) : ∀ d : Declaration,
    remarks [s.declarationForm d] = []
  | .function name inputs output => by
    rw [declarationForm, remarks_list, remarks_cons, remarks_cons (.symbol name),
      remarks_cons (.list _), remarks_list, TermSort.remarks_forms, TermSort.remarks_form]
    rfl
  | .constant name sort => by
    rw [declarationForm, remarks_list, remarks_cons, remarks_cons (.symbol name),
      TermSort.remarks_form]
    rfl
  | .definition name parameters output body => by
    rw [declarationForm, remarks_list, remarks_cons, remarks_cons (.symbol name),
      remarks_cons (.list _), remarks_cons output.form, remarks_bindings, TermSort.remarks_form,
      remarks_form]
    rfl
  | .variable _ _ => rfl

theorem remarks_assertionForms (s : Script) (a : Assertion) :
    remarks (s.assertionForms a) = tokensAll (a.name.map commentForm).toList := by
  have hassert : remarks [.list [.symbol "assert", s.form a.formula]] = [] := by
    rw [remarks_list, remarks_cons, remarks_symbol, remarks_form]
    rfl
  rw [assertionForms, remarks_append, hassert, List.append_nil]
  cases a.name with
  | none => rfl
  | some name =>
    show remarks [commentForm name] = _
    simp [remarks, tokensAll, tokens, commentForm, Token.isRemark, Token.isRemark_commentAtom]

/-- The remarks of a script are the names of its assertions. -/
theorem remarks_commandForms (s : Script) : remarks s.commandForms =
    tokensAll ((s.assertions.filterMap (·.name)).map commentForm) := by
  have hsorts : remarks (s.sorts.map sortDeclarationForm) = [] := remarks_map fun _ _ => rfl
  have hdecls : remarks ((s.functions ++ s.constants ++ s.definitions).map s.formAt) = [] := by
    refine remarks_map fun id _ => ?_
    unfold formAt
    split
    · exact remarks_declarationForm s _
    · rfl
  have hasserts : ∀ as : List Assertion, remarks (as.flatMap s.assertionForms) =
      tokensAll ((as.filterMap (·.name)).map commentForm) := by
    intro as
    induction as with
    | nil => rfl
    | cons a as ih =>
      rw [List.flatMap_cons, remarks_append, remarks_assertionForms, ih, List.filterMap_cons]
      cases a.name with
      | none => rfl
      | some name => simp [tokensAll]
  rw [commandForms, remarks_append, remarks_append, remarks_append, hsorts, hdecls, hasserts]
  rfl

/-- Printing depends on the page in the layout only. -/
theorem print_of_print {s : Script} {width : Nat} {text : String} (h : s.print width = .ok text)
    (width' : Nat) : ∃ text', s.print width' = .ok text' := by
  obtain ⟨bs, hbs, _⟩ := bind_eq_ok.mp h
  exact ⟨_, bind_eq_ok.mpr ⟨bs, hbs, rfl⟩⟩

/-- The s-expressions of a printed text. -/
theorem ofTokens_print {s : Script} {width : Nat} {text : String} (hfits : s.WordsFit)
    (h : s.print width = .ok text) :
    ofTokens (dropNestedComments 0 (tokensAll s.commandForms)) = .ok s.commandForms := by
  obtain ⟨bs, hbs, _⟩ := bind_eq_ok.mp h
  exact ofTokens_dropNestedComments (topLevel_commandForms hfits hbs)

/-- A printed text is read as the forms of its commands, which is the prelude,
then one list for each sort, function, constant, definition and assertion. Its
only remarks are the names of assertions, and every page has the same tokens. -/
theorem print_reads_as_commandForms {s : Script} {width : Nat} {text : String}
    (hfits : s.WordsFit) (h : s.print width = .ok text) :
    ∃ tokens, Token.ofText text = .ok tokens ∧
      ofTokens (dropNestedComments 0 tokens) = .ok
        (preludeForms ++ s.sorts.map sortDeclarationForm ++ s.functions.map s.formAt ++
          s.constants.map s.formAt ++ s.definitions.map s.formAt ++
          s.assertions.flatMap fun a => (a.name.map commentForm).toList ++
            [.list [.symbol "assert", s.form a.formula]]) ∧
      tokens.filter Token.isRemark =
        tokensAll ((s.assertions.filterMap (·.name)).map commentForm) ∧
      ∀ width', ∃ text', s.print width' = .ok text' ∧ Token.ofText text' = .ok tokens := by
  refine ⟨tokensAll s.commandForms, ofText_print hfits h, ?_, remarks_commandForms s,
    fun width' => ?_⟩
  · rw [ofTokens_print hfits h, commandForms, List.map_append, List.map_append]
    simp only [List.append_assoc]
    rfl
  · obtain ⟨text', h'⟩ := print_of_print h width'
    exact ⟨text', h', ofText_print hfits h'⟩

/-- Names that would end, open or hide commands if they were written bare. -/
def intrusive : Script where
  sorts := [⟨"S)(exit", 0, none⟩]
  arena := #[.constant "c\n; (" (.named "S)(exit"), .variable "assert" .int]
  constants := [⟨0⟩]
  index := [("c\n; (", ⟨0⟩)]
  assertions :=
    [⟨some "(exit) ; |", .quantified .all [⟨1⟩] (.binary .eq (.ref ⟨0⟩) (.ref ⟨0⟩))⟩]

theorem print_reads_as_commandForms_intrusive : ∃ text tokens,
    intrusive.WordsFit ∧ intrusive.print 10 = .ok text ∧ Token.ofText text = .ok tokens ∧
      ofTokens (dropNestedComments 0 tokens) = .ok (preludeForms ++
        [.list [.symbol "declare-sort", .symbol "S)(exit", .numeral 0],
          .list [.symbol "declare-const", .symbol "c\n; (", .symbol "S)(exit"],
          .atom (.comment "(exit) ; |"),
          .list [.symbol "assert", .list [.symbol "forall",
            .list [.list [.symbol "assert", .symbol "Int"]],
            .list [.symbol "=", .symbol "c\n; (", .symbol "c\n; ("]]]]) := by
  have hfits : intrusive.WordsFit := by
    refine ⟨by decide, fun {id name parameters output body} h => ?_, by decide⟩
    match id with
    | ⟨0⟩ | ⟨1⟩ | ⟨_ + 2⟩ => cases h
  obtain ⟨text, htext⟩ : ∃ text, intrusive.print 10 = .ok text := ⟨_, rfl⟩
  obtain ⟨tokens, htokens, hforms, _⟩ := print_reads_as_commandForms hfits htext
  exact ⟨text, tokens, hfits, htext, htokens, hforms⟩

end Script

end TupleLogic
