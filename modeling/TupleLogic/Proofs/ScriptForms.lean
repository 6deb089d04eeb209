import Mathlib.Data.List.Forall2
import Mathlib.Data.List.TakeWhile
import TupleLogic.Script.Printer
import TupleLogic.Proofs.Growth
import TupleLogic.Proofs.LayoutTokens

/-! Scripts as s-expressions. Each sort, term and command has a form, which
holds its names as they are; the text of a printed script is read as the
forms of its commands, whatever the names are and however wide the page. -/

namespace TupleLogic

open Layout

/-! ## Forms -/

namespace TermSort

mutual
def form : TermSort → SExpr
  | .named n => .symbol n
  | .set e => .list [.symbol "Set", e.form]
  | .tuple cs => .list (.symbol "Tuple" :: forms cs)
  | .int => .symbol "Int"
  | .bool => .symbol "Bool"
  | .real => .symbol "Real"
  | .string => .symbol "String"

def forms : List TermSort → List SExpr
  | [] => []
  | s :: ss => s.form :: forms ss
end

end TermSort

namespace Script

/-- An integer; a sign is a head of its own. -/
def intForm (n : Int) : SExpr :=
  if n < 0 then .list [.symbol "-", .numeral n.natAbs] else .numeral n.natAbs

def setLiteralForm (literal : String) (sort : TermSort) : SExpr :=
  .list [.symbol "as", .symbol literal, sort.form]

/-- The head of a selection, if the column is a number. -/
def selectorForm : Term → SExpr
  | .int n => .list [.symbol "_", .symbol BinaryOp.select.spelling, .numeral n.natAbs]
  | _ => .list []

section Forms

variable (s : Script)

/-- The name of a declaration, or none if there is no such declaration. -/
def nameOf (id : DeclId) : String :=
  match s.arena[id.index]? with
  | some d => d.name
  | none => ""

def bindingForm (id : DeclId) : SExpr :=
  match s.arena[id.index]? with
  | some d => .list [.symbol d.name, d.sort.form]
  | none => .list []

mutual
def form : Term → SExpr
  | .ref id => .symbol (s.nameOf id)
  | .int n => intForm n
  | .bool b => .symbol (if b then "true" else "false")
  | .emptySet sort => setLiteralForm "emptyset" sort
  | .fullSet sort => setLiteralForm "univset" sort
  | .unary op a => .list [.symbol op.spelling, form a]
  | .binary op a b =>
    if op = .select then .list [selectorForm a, form b]
    else .list [.symbol op.spelling, form a, form b]
  | .nary op args => .list (.symbol op.spelling :: forms args)
  | .quantified q vars body =>
    .list [.symbol q.spelling, .list (vars.map s.bindingForm), form body]
  | .ite c a b => .list [.symbol "ite", form c, form a, form b]
  | .call f args => if args.isEmpty then .symbol f else .list (.symbol f :: forms args)

def forms : List Term → List SExpr
  | [] => []
  | t :: ts => form t :: forms ts
end

def sortDeclarationForm (d : SortDeclaration) : SExpr :=
  .list [.symbol "declare-sort", .symbol d.name, .numeral d.arity]

def declarationForm : Declaration → SExpr
  | .function name inputs output =>
    .list [.symbol "declare-fun", .symbol name, .list (TermSort.forms inputs), output.form]
  | .constant name sort => .list [.symbol "declare-const", .symbol name, sort.form]
  | .definition name parameters output body =>
    .list [.symbol "define-fun", .symbol name, .list (parameters.map s.bindingForm), output.form,
      s.form body]
  | .variable _ _ => .list []

/-- The comment that a name becomes. -/
def commentForm (name : String) : SExpr :=
  .atom (Token.commentAtom (Text.trim (' ' :: name.toList)))

def assertionForms (a : Assertion) : List SExpr :=
  (a.name.map commentForm).toList ++ [.list [.symbol "assert", s.form a.formula]]

def preludeForms : List SExpr :=
  [.list [.symbol "set-logic", .symbol "ALL"],
    .list [.symbol "set-option", .atom (.keyword "produce-models"), .symbol "true"],
    .list [.symbol "set-option", .atom (.keyword "finite-model-find"), .symbol "true"],
    .list [.symbol "set-option", .atom (.keyword "sets-ext"), .symbol "true"]]

/-- The declaration at a place, or none. -/
def formAt (id : DeclId) : SExpr :=
  match s.arena[id.index]? with
  | some d => s.declarationForm d
  | none => .list []

/-- The forms of all commands, and the comments before them. -/
def commandForms : List SExpr :=
  preludeForms ++ s.sorts.map sortDeclarationForm ++
    (s.functions ++ s.constants ++ s.definitions).map s.formAt ++
    s.assertions.flatMap s.assertionForms

end Forms

/-! ## Blocks and their forms -/

section Spells

open Token

theorem spells_simple {text : String} (style : Style) (h : Symbol.isSimple text.toList = true) :
    Block.Spells (.text style text) (.symbol text) := by
  rw [Block.Spells]
  exact ⟨rfl, lexes_simple h⟩

theorem spells_numeral {n : Nat} (style : Style) (h : Text.fitsUnsigned64 n = true) :
    Block.Spells (.text style (toString n)) (.numeral n) := by
  rw [Block.Spells]
  exact ⟨rfl, lexes_numeral h⟩

theorem spells_spell {name text : String} (style : Style) (h : Symbol.spell name = .ok text) :
    Block.Spells (.text style text) (.symbol name) := by
  rw [Block.Spells]
  exact ⟨rfl, lexes_spell h⟩

theorem spells_name {name : String} {b : Block} (h : nameBlock name = .ok b) :
    b.Spells (.symbol name) := by
  obtain ⟨text, htext, h⟩ := bind_eq_ok.mp h
  obtain rfl := pure_eq_ok.mp h
  exact spells_spell _ htext

/-- A form of one, two or three arguments. -/
theorem spells_form {depth : Nat} {head : Block} {args : List Block} {e : SExpr} {es : List SExpr}
    (hhead : head.Spells e) (hargs : Block.SpellsAll args es) :
    Block.Spells (.form depth head args) (.list (e :: es)) := by
  rw [Block.Spells]
  exact ⟨hhead, hargs⟩

theorem spellsAll_nil : Block.SpellsAll [] [] := by
  rw [Block.SpellsAll]
  trivial

theorem spellsAll_cons {b : Block} {bs : List Block} {e : SExpr} {es : List SExpr}
    (h : b.Spells e) (hs : Block.SpellsAll bs es) : Block.SpellsAll (b :: bs) (e :: es) := by
  rw [Block.SpellsAll]
  exact ⟨h, hs⟩

theorem spellsAll_mapM {α : Type} {block : α → Except TermError Block} {form : α → SExpr}
    {xs : List α} {bs : List Block} (hform : ∀ x ∈ xs, ∀ b, block x = .ok b → b.Spells (form x))
    (h : xs.mapM block = .ok bs) : Block.SpellsAll bs (xs.map form) := by
  induction xs generalizing bs with
  | nil =>
    obtain rfl := pure_eq_ok.mp h
    exact spellsAll_nil
  | cons x xs ih =>
    rw [List.mapM_cons] at h
    obtain ⟨b, hb, h⟩ := bind_eq_ok.mp h
    obtain ⟨bs, hbs, h⟩ := bind_eq_ok.mp h
    obtain rfl := pure_eq_ok.mp h
    exact spellsAll_cons (hform x List.mem_cons_self b hb)
      (ih (fun y hy => hform y (List.mem_cons_of_mem _ hy)) hbs)

mutual
theorem spells_sort : ∀ {depth : Nat} {sort : TermSort} {b : Block},
    sortBlock depth sort = .ok b → b.Spells sort.form
  | depth, .named n, b, h => by
    rw [sortBlock] at h
    obtain ⟨text, htext, h⟩ := bind_eq_ok.mp h
    obtain rfl := pure_eq_ok.mp h
    exact spells_spell _ htext
  | depth, .set e, b, h => by
    rw [sortBlock] at h
    obtain ⟨be, he, h⟩ := bind_eq_ok.mp h
    obtain rfl := pure_eq_ok.mp h
    exact spells_form (spells_simple _ rfl) (spellsAll_cons (spells_sort he) spellsAll_nil)
  | depth, .tuple cs, b, h => by
    rw [sortBlock] at h
    obtain ⟨_, h⟩ := checked_eq_ok.mp h
    obtain ⟨bs, hbs, h⟩ := bind_eq_ok.mp h
    obtain rfl := pure_eq_ok.mp h
    exact spells_form (spells_simple _ rfl) (spells_sorts hbs)
  | depth, .int, b, h => by
    rw [sortBlock] at h
    obtain rfl := Except.ok.inj h
    exact spells_simple _ rfl
  | depth, .bool, b, h => by
    rw [sortBlock] at h
    obtain rfl := Except.ok.inj h
    exact spells_simple _ rfl
  | depth, .real, b, h => by
    rw [sortBlock] at h
    cases h
  | depth, .string, b, h => by
    rw [sortBlock] at h
    cases h

theorem spells_sorts : ∀ {depth : Nat} {sorts : List TermSort} {bs : List Block},
    sortBlocks depth sorts = .ok bs → Block.SpellsAll bs (TermSort.forms sorts)
  | depth, [], bs, h => by
    rw [sortBlocks] at h
    obtain rfl := Except.ok.inj h
    exact spellsAll_nil
  | depth, s :: ss, bs, h => by
    rw [sortBlocks] at h
    obtain ⟨b, hb, h⟩ := bind_eq_ok.mp h
    obtain ⟨bs, hbs, h⟩ := bind_eq_ok.mp h
    obtain rfl := pure_eq_ok.mp h
    exact spellsAll_cons (spells_sort hb) (spells_sorts hbs)
end

theorem spells_inputs {depth : Nat} {sorts : List TermSort} {b : Block}
    (h : sortsBlock depth sorts = .ok b) : b.Spells (.list (TermSort.forms sorts)) := by
  obtain ⟨bs, hbs, h⟩ := bind_eq_ok.mp h
  obtain rfl := pure_eq_ok.mp h
  rw [Block.Spells]
  exact spells_sorts hbs

theorem decl_eq_ok {s : Script} {id : DeclId} {d : Declaration} :
    s.decl id = .ok d ↔ s.arena[id.index]? = some d := by
  unfold decl
  cases s.arena[id.index]? with
  | none => exact ⟨nofun, nofun⟩
  | some d' => rw [Except.ok.injEq, Option.some.injEq]

theorem nameOf_eq {s : Script} {id : DeclId} {d : Declaration} (h : s.arena[id.index]? = some d) :
    s.nameOf id = d.name := by
  rw [nameOf, h]

theorem spells_binding {s : Script} {depth : Nat} {id : DeclId} {b : Block}
    (h : s.bindingBlock depth id = .ok b) : b.Spells (s.bindingForm id) := by
  obtain ⟨d, hd, h⟩ := bind_eq_ok.mp h
  rcases d with _ | _ | _ | ⟨name, sort⟩
  · cases h
  · cases h
  · cases h
  · obtain ⟨head, hhead, h⟩ := bind_eq_ok.mp h
    obtain ⟨bs, hbs, h⟩ := bind_eq_ok.mp h
    obtain rfl := pure_eq_ok.mp h
    rw [bindingForm, decl_eq_ok.mp hd]
    exact spells_form (spells_name hhead) (spellsAll_cons (spells_sort hbs) spellsAll_nil)

theorem spells_bindings {s : Script} {depth : Nat} {ids : List DeclId} {b : Block}
    (h : s.bindingsBlock depth ids = .ok b) : b.Spells (.list (ids.map s.bindingForm)) := by
  obtain ⟨bs, hbs, h⟩ := bind_eq_ok.mp h
  obtain rfl := pure_eq_ok.mp h
  rw [Block.Spells]
  exact spellsAll_mapM (fun _ _ _ hb => spells_binding hb) hbs

theorem fitsUnsigned64_natAbs {n : Int} (h : Text.fitsSigned64 n = true) :
    Text.fitsUnsigned64 n.natAbs = true := by
  simp only [Text.fitsSigned64, Bool.and_eq_true, decide_eq_true_eq] at h
  simp only [Text.fitsUnsigned64, decide_eq_true_eq]
  omega

theorem spells_int {depth : Nat} {n : Int} (h : Text.fitsSigned64 n = true) :
    (intBlock depth n).Spells (intForm n) := by
  have hfits := fitsUnsigned64_natAbs h
  unfold intBlock intForm
  split
  · exact spells_form (spells_simple _ rfl) (spellsAll_cons (spells_numeral _ hfits) spellsAll_nil)
  · exact spells_numeral _ hfits

theorem spells_setLiteral {depth : Nat} {literal : String} {sort : TermSort} {b : Block}
    (hliteral : Symbol.isSimple literal.toList = true)
    (h : setLiteralBlock depth literal sort = .ok b) : b.Spells (setLiteralForm literal sort) := by
  rw [setLiteralBlock] at h
  obtain ⟨_, h⟩ := checked_eq_ok.mp h
  obtain ⟨bs, hbs, h⟩ := bind_eq_ok.mp h
  obtain rfl := pure_eq_ok.mp h
  exact spells_form (spells_simple _ rfl)
    (spellsAll_cons (spells_simple _ hliteral) (spellsAll_cons (spells_sort hbs) spellsAll_nil))

end Spells

/-! ## Terms -/

mutual
/-- The integers in the term are machine words. -/
def intsFit : Term → Bool
  | .ref _ | .bool _ | .emptySet _ | .fullSet _ => true
  | .int n => Text.fitsSigned64 n
  | .unary _ a => intsFit a
  | .binary _ a b => intsFit a && intsFit b
  | .nary _ args | .call _ args => intsFitAll args
  | .quantified _ _ body => intsFit body
  | .ite c a b => intsFit c && intsFit a && intsFit b

def intsFitAll : List Term → Bool
  | [] => true
  | t :: ts => intsFit t && intsFitAll ts
end

theorem spells_selector {depth : Nat} {t : Term} {b : Block} (hfits : intsFit t = true)
    (h : selectorBlock depth t = .ok b) : b.Spells (selectorForm t) := by
  unfold selectorBlock at h
  split at h
  · split at h
    · cases h
    · obtain rfl := Except.ok.inj h
      rw [intsFit] at hfits
      exact spells_form (spells_simple _ rfl) (spellsAll_cons (spells_simple _ rfl)
        (spellsAll_cons (spells_numeral _ (fitsUnsigned64_natAbs hfits)) spellsAll_nil))
  · cases h

mutual
theorem spells_term {s : Script} : ∀ {depth : Nat} {t : Term} {b : Block}, intsFit t = true →
    s.termBlock depth t = .ok b → b.Spells (s.form t)
  | depth, .ref id, b, _, h => by
    rw [termBlock] at h
    obtain ⟨d, hd, h⟩ := bind_eq_ok.mp h
    rw [form, nameOf_eq (decl_eq_ok.mp hd)]
    exact spells_name h
  | depth, .int n, b, hfits, h => by
    rw [termBlock] at h
    obtain rfl := Except.ok.inj h
    exact spells_int hfits
  | depth, .bool v, b, _, h => by
    rw [termBlock] at h
    obtain rfl := Except.ok.inj h
    cases v <;> exact spells_simple _ rfl
  | depth, .emptySet sort, b, _, h => by
    rw [termBlock] at h
    exact spells_setLiteral rfl h
  | depth, .fullSet sort, b, _, h => by
    rw [termBlock] at h
    exact spells_setLiteral rfl h
  | depth, .unary op a, b, hfits, h => by
    rw [termBlock] at h
    obtain ⟨ba, ha, h⟩ := bind_eq_ok.mp h
    obtain rfl := pure_eq_ok.mp h
    refine spells_form (spells_simple _ ?_) (spellsAll_cons (spells_term hfits ha) spellsAll_nil)
    cases op <;> rfl
  | depth, .binary op a c, b, hfits, h => by
    rw [intsFit, Bool.and_eq_true] at hfits
    rw [termBlock] at h
    rw [form]
    split at h
    · rename_i hop
      obtain ⟨ba, ha, h⟩ := bind_eq_ok.mp h
      obtain ⟨bc, hc, h⟩ := bind_eq_ok.mp h
      obtain rfl := pure_eq_ok.mp h
      rw [if_pos hop]
      exact spells_form (spells_selector hfits.1 ha)
        (spellsAll_cons (spells_term hfits.2 hc) spellsAll_nil)
    · rename_i hop
      obtain ⟨ba, ha, h⟩ := bind_eq_ok.mp h
      obtain ⟨bc, hc, h⟩ := bind_eq_ok.mp h
      obtain rfl := pure_eq_ok.mp h
      rw [if_neg hop]
      refine spells_form (spells_simple _ ?_) (spellsAll_cons (spells_term hfits.1 ha)
        (spellsAll_cons (spells_term hfits.2 hc) spellsAll_nil))
      cases op <;> rfl
  | depth, .nary op args, b, hfits, h => by
    rw [termBlock] at h
    obtain ⟨_, h⟩ := checked_eq_ok.mp h
    obtain ⟨bs, hbs, h⟩ := bind_eq_ok.mp h
    obtain rfl := pure_eq_ok.mp h
    refine spells_form (spells_simple _ ?_) (spells_terms hfits hbs)
    cases op <;> rfl
  | depth, .quantified q vars body, b, hfits, h => by
    rw [termBlock] at h
    obtain ⟨_, h⟩ := checked_eq_ok.mp h
    obtain ⟨bs, hbs, h⟩ := bind_eq_ok.mp h
    obtain ⟨bbody, hbody, h⟩ := bind_eq_ok.mp h
    obtain rfl := pure_eq_ok.mp h
    refine spells_form (spells_simple _ ?_) (spellsAll_cons (spells_bindings hbs)
      (spellsAll_cons (spells_term hfits hbody) spellsAll_nil))
    cases q <;> rfl
  | depth, .ite c a e, b, hfits, h => by
    rw [intsFit, Bool.and_eq_true, Bool.and_eq_true] at hfits
    rw [termBlock] at h
    obtain ⟨bc, hc, h⟩ := bind_eq_ok.mp h
    obtain ⟨ba, ha, h⟩ := bind_eq_ok.mp h
    obtain ⟨be, he, h⟩ := bind_eq_ok.mp h
    obtain rfl := pure_eq_ok.mp h
    exact spells_form (spells_simple _ rfl) (spellsAll_cons (spells_term hfits.1.1 hc)
      (spellsAll_cons (spells_term hfits.1.2 ha)
        (spellsAll_cons (spells_term hfits.2 he) spellsAll_nil)))
  | depth, .call f args, b, hfits, h => by
    rw [termBlock] at h
    obtain ⟨head, hhead, h⟩ := bind_eq_ok.mp h
    rw [form]
    split at h
    · rename_i hargs
      obtain rfl := pure_eq_ok.mp h
      rw [if_pos hargs]
      exact spells_name hhead
    · rename_i hargs
      obtain ⟨bs, hbs, h⟩ := bind_eq_ok.mp h
      obtain rfl := pure_eq_ok.mp h
      rw [if_neg hargs]
      exact spells_form (spells_name hhead) (spells_terms hfits hbs)

theorem spells_terms {s : Script} : ∀ {depth : Nat} {ts : List Term} {bs : List Block},
    intsFitAll ts = true → s.termBlocks depth ts = .ok bs → Block.SpellsAll bs (s.forms ts)
  | depth, [], bs, _, h => by
    rw [termBlocks] at h
    obtain rfl := Except.ok.inj h
    exact spellsAll_nil
  | depth, t :: ts, bs, hfits, h => by
    rw [intsFitAll, Bool.and_eq_true] at hfits
    rw [termBlocks] at h
    obtain ⟨b, hb, h⟩ := bind_eq_ok.mp h
    obtain ⟨bs, hbs, h⟩ := bind_eq_ok.mp h
    obtain rfl := pure_eq_ok.mp h
    exact spellsAll_cons (spells_term hfits.1 hb) (spells_terms hfits.2 hbs)
end

/-! ## Commands -/

/-- All numbers of the script are machine words. -/
structure WordsFit (s : Script) : Prop where
  sorts : ∀ d ∈ s.sorts, Text.fitsUnsigned32 d.arity = true
  definitions : ∀ {id : DeclId} {name : String} {parameters : List DeclId} {output : TermSort}
    {body : Term}, s.arena[id.index]? = some (.definition name parameters output body) →
      intsFit body = true
  assertions : ∀ a ∈ s.assertions, intsFit a.formula = true

theorem spells_sortDeclaration {d : SortDeclaration} {b : Block}
    (hfits : Text.fitsUnsigned32 d.arity = true) (h : sortDeclarationBlock d = .ok b) :
    b.Spells (sortDeclarationForm d) := by
  obtain ⟨text, htext, h⟩ := bind_eq_ok.mp h
  obtain rfl := pure_eq_ok.mp h
  have harity : Text.fitsUnsigned64 d.arity = true := by
    simp only [Text.fitsUnsigned32, Text.fitsUnsigned64, decide_eq_true_eq] at hfits ⊢
    omega
  exact spells_form (spells_simple _ rfl) (spellsAll_cons (spells_spell _ htext)
    (spellsAll_cons (spells_numeral _ harity) spellsAll_nil))

theorem spells_declaration {s : Script} {d : Declaration} {b : Block}
    (hfits : ∀ name parameters output body, d = .definition name parameters output body →
      intsFit body = true) (h : s.declarationBlock d = .ok b) : b.Spells (s.declarationForm d) := by
  rcases d with ⟨name, inputs, output⟩ | ⟨name, sort⟩ | ⟨name, parameters, output, body⟩ | _
  · obtain ⟨bname, hname, h⟩ := bind_eq_ok.mp h
    obtain ⟨binputs, hinputs, h⟩ := bind_eq_ok.mp h
    obtain ⟨boutput, houtput, h⟩ := bind_eq_ok.mp h
    obtain rfl := pure_eq_ok.mp h
    exact spells_form (spells_simple _ rfl) (spellsAll_cons (spells_name hname)
      (spellsAll_cons (spells_inputs hinputs)
        (spellsAll_cons (spells_sort houtput) spellsAll_nil)))
  · obtain ⟨bname, hname, h⟩ := bind_eq_ok.mp h
    obtain ⟨bsort, hsort, h⟩ := bind_eq_ok.mp h
    obtain rfl := pure_eq_ok.mp h
    exact spells_form (spells_simple _ rfl) (spellsAll_cons (spells_name hname)
      (spellsAll_cons (spells_sort hsort) spellsAll_nil))
  · obtain ⟨bname, hname, h⟩ := bind_eq_ok.mp h
    obtain ⟨bparameters, hparameters, h⟩ := bind_eq_ok.mp h
    obtain ⟨boutput, houtput, h⟩ := bind_eq_ok.mp h
    obtain ⟨bbody, hbody, h⟩ := bind_eq_ok.mp h
    obtain rfl := pure_eq_ok.mp h
    exact spells_form (spells_simple _ rfl) (spellsAll_cons (spells_name hname)
      (spellsAll_cons (spells_bindings hparameters) (spellsAll_cons (spells_sort houtput)
        (spellsAll_cons (spells_term (hfits _ _ _ _ rfl) hbody) spellsAll_nil))))
  · cases h

/-! ## Text -/

/-- A block on lines of its own is read as the s-expression, on every page. -/
structure ReadsAs (b : Block) (e : SExpr) : Prop where
  tokens : ∀ (width : Nat) (rest : List Char),
    Token.tokens (chars (b.layout width 0 0 0) ++ '\n' :: rest) =
      (Token.tokens rest).map (e.tokens ++ ·)
  top : e.commentFree = true ∨ ∃ a, e = .atom a

theorem readsAs_text {style : Style} {text : String} {e : SExpr} (hfree : e.commentFree = true)
    (h : Token.Lexes text.toList e.tokens) : ReadsAs (.text style text) e := by
  refine ⟨fun width rest => ?_, .inl hfree⟩
  rw [Block.layout, chars_text, h _ (Token.delimited_blank _ rfl), Token.tokens_blank _ rfl]

theorem readsAs_spells {b : Block} {e : SExpr} (h : b.Spells e) : ReadsAs b e := by
  refine ⟨fun width rest => ?_, .inl h.commentFree⟩
  rw [h.layout width 0 0 0 _ (Token.delimited_blank _ rfl), Token.tokens_blank _ rfl]

theorem readsAs_comment {name : String} {b : Block} (h : commentBlock name = .ok b) :
    ReadsAs b (commentForm name) := by
  unfold commentBlock at h
  split at h
  · cases h
  · rename_i hlines
    obtain rfl := Except.ok.inj h
    have hchars : ∀ c ∈ ' ' :: name.toList, Token.isCommentChar c = true := by
      rw [List.forall_mem_cons]
      refine ⟨rfl, fun c hc => ?_⟩
      rw [Bool.not_eq_true, List.any_eq_false] at hlines
      have hc := hlines c hc
      rw [Bool.or_eq_true, not_or, decide_eq_true_eq] at hc
      exact bne_iff_ne.mpr hc.1
    have htext : ("; " ++ name).toList = ';' :: (' ' :: name.toList) := by
      rw [String.toList_append]
      rfl
    refine ⟨fun width rest => ?_, .inr ⟨_, rfl⟩⟩
    rw [Block.layout, chars_text, htext, Token.tokens_comment hchars]
    rfl

theorem lexes_option (option : String) (hne : option.toList ≠ [])
    (hall : option.toList.all Symbol.isSymbolChar = true) :
    Token.Lexes ('(' :: ("set-option".toList ++ (' ' :: (':' :: option.toList)) ++
      (' ' :: "true".toList) ++ [')']))
      (SExpr.list [.symbol "set-option", .atom (.keyword option), .symbol "true"]).tokens := by
  have hname : Token.Lexes "set-option".toList [.atom (.symbol "set-option")] :=
    Token.lexes_simple rfl
  have hkeyword := (Token.lexes_keyword hne hall).blank (c := ' ') rfl
  have htrue : Token.Lexes (' ' :: "true".toList) [.atom (.symbol "true")] :=
    (Token.lexes_simple rfl).blank rfl
  exact ((hname.append hkeyword (follows_blank _ rfl)).append htrue
    (follows_blank _ rfl)).parenthesized

theorem lexes_logic : Token.Lexes "(set-logic ALL)".toList
    (SExpr.list [.symbol "set-logic", .symbol "ALL"]).tokens := by
  have hname : Token.Lexes "set-logic".toList [.atom (.symbol "set-logic")] :=
    Token.lexes_simple rfl
  have hlogic : Token.Lexes (' ' :: "ALL".toList) [.atom (.symbol "ALL")] :=
    (Token.lexes_simple rfl).blank rfl
  exact (hname.append hlogic (follows_blank _ rfl)).parenthesized

theorem readsAs_prelude :
    List.Forall₂ ReadsAs (prelude.map (Block.text .keyword ·)) preludeForms := by
  refine .cons (readsAs_text rfl lexes_logic) (.cons ?_ (.cons ?_ (.cons ?_ .nil)))
  · exact readsAs_text rfl (lexes_option "produce-models" (by decide) (by decide))
  · exact readsAs_text rfl (lexes_option "finite-model-find" (by decide) (by decide))
  · exact readsAs_text rfl (lexes_option "sets-ext" (by decide) (by decide))

theorem tokens_layoutBlocks {bs : List Block} {es : List SExpr} (h : List.Forall₂ ReadsAs bs es)
    (width : Nat) : Token.tokens (chars (layoutBlocks width bs)) = .ok (SExpr.tokensAll es) := by
  induction h with
  | nil => exact Token.tokens_nil
  | @cons b e bs es hb _ ih =>
    rw [layoutBlocks, List.flatMap_cons, chars_append, chars_append, List.append_assoc]
    change Token.tokens (_ ++ '\n' :: chars (layoutBlocks width bs)) = _
    rw [hb.tokens width, ih]
    rfl

theorem forall₂_mapM {α β γ ε : Type} {f : α → Except ε β} {g : α → γ} {R : β → γ → Prop}
    {xs : List α} {ys : List β} (hR : ∀ x ∈ xs, ∀ y, f x = .ok y → R y (g x))
    (h : xs.mapM f = .ok ys) : List.Forall₂ R ys (xs.map g) := by
  induction xs generalizing ys with
  | nil =>
    obtain rfl := pure_eq_ok.mp h
    exact .nil
  | cons x xs ih =>
    rw [List.mapM_cons] at h
    obtain ⟨y, hy, h⟩ := bind_eq_ok.mp h
    obtain ⟨ys, hys, h⟩ := bind_eq_ok.mp h
    obtain rfl := pure_eq_ok.mp h
    exact .cons (hR x List.mem_cons_self y hy)
      (ih (fun z hz => hR z (List.mem_cons_of_mem _ hz)) hys)

theorem readsAs_assertion {s : Script} {a : Assertion} {bs : List Block}
    (hfits : intsFit a.formula = true) (h : s.assertionBlocks a = .ok bs) :
    List.Forall₂ ReadsAs bs (s.assertionForms a) := by
  obtain ⟨name, formula⟩ := a
  obtain ⟨b, hb, h⟩ := bind_eq_ok.mp h
  have hassert : ReadsAs (commandBlock "assert" [b]) (.list [.symbol "assert", s.form formula]) :=
    readsAs_spells (spells_form (spells_simple _ rfl)
      (spellsAll_cons (spells_term hfits hb) spellsAll_nil))
  cases name with
  | none =>
    obtain rfl := pure_eq_ok.mp h
    exact .cons hassert .nil
  | some name =>
    obtain ⟨comment, hcomment, h⟩ := bind_eq_ok.mp h
    obtain rfl := pure_eq_ok.mp h
    exact .cons (readsAs_comment hcomment) (.cons hassert .nil)

theorem readsAs_blocks {s : Script} {bs : List Block} (hfits : s.WordsFit) (h : s.blocks = .ok bs) :
    List.Forall₂ ReadsAs bs s.commandForms := by
  obtain ⟨sorts, hsorts, h⟩ := bind_eq_ok.mp h
  obtain ⟨declarations, hdeclarations, h⟩ := bind_eq_ok.mp h
  obtain ⟨assertions, hassertions, h⟩ := bind_eq_ok.mp h
  obtain rfl := pure_eq_ok.mp h
  have hs : List.Forall₂ ReadsAs sorts (s.sorts.map sortDeclarationForm) :=
    forall₂_mapM (fun d hd b hb => readsAs_spells (spells_sortDeclaration (hfits.sorts d hd) hb))
      hsorts
  have hd : List.Forall₂ ReadsAs declarations
      ((s.functions ++ s.constants ++ s.definitions).map s.formAt) := by
    refine forall₂_mapM (fun id hid b hb => readsAs_spells ?_) hdeclarations
    obtain ⟨d, hd, hb⟩ := bind_eq_ok.mp hb
    rw [formAt, decl_eq_ok.mp hd]
    refine spells_declaration ?_ hb
    rintro name parameters output body rfl
    exact hfits.definitions (decl_eq_ok.mp hd)
  have ha : List.Forall₂ ReadsAs assertions.flatten (s.assertions.flatMap s.assertionForms) := by
    rw [List.flatMap_def]
    exact List.rel_flatten (forall₂_mapM (fun a ha bs hbs =>
      readsAs_assertion (hfits.assertions a ha) hbs) hassertions)
  exact List.rel_append (List.rel_append (List.rel_append readsAs_prelude hs) hd) ha

theorem ofText_eq {text : String} {ts : List Token} (h : Token.tokens text.toList = .ok ts)
    (hne : ts ≠ []) : Token.ofText text = .ok ts := by
  rw [Token.ofText, h, if_neg]
  intro hblank
  rw [Bool.and_eq_true, List.all_eq_true] at hblank
  rw [Token.tokens_eq, List.dropWhile_eq_nil_iff.mpr hblank.2] at h
  exact hne (Except.ok.inj h).symm

/-- The text of a script is read as the forms of its commands. -/
theorem ofText_print {s : Script} {width : Nat} {text : String} (hfits : s.WordsFit)
    (h : s.print width = .ok text) : Token.ofText text = .ok (SExpr.tokensAll s.commandForms) := by
  obtain ⟨bs, hbs, h⟩ := bind_eq_ok.mp h
  obtain rfl := pure_eq_ok.mp h
  refine ofText_eq ?_ nofun
  rw [render, String.toList_join, List.flatMap_map]
  exact tokens_layoutBlocks (readsAs_blocks hfits hbs) width

theorem topLevel_commandForms {s : Script} {bs : List Block} (hfits : s.WordsFit)
    (h : s.blocks = .ok bs) : SExpr.TopLevel s.commandForms := by
  have htop : ∀ {bs es}, List.Forall₂ ReadsAs bs es → SExpr.TopLevel es := by
    intro bs es hes
    induction hes with
    | nil => exact nofun
    | cons hb _ ih => exact List.forall_mem_cons.mpr ⟨hb.top, ih⟩
  exact htop (readsAs_blocks hfits h)

end Script

end TupleLogic
