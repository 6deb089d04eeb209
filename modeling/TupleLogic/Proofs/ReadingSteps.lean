import TupleLogic.Proofs.Binders
import TupleLogic.Proofs.Comments
import TupleLogic.Proofs.ReaderOutput

/-! Reading part by part. The parts of a form that stands for a term are read in the
order in which they are written, each before its operands, and each becomes the part
of the term that is in the same place. `Step` says what reading one part does, and
`Executes` what one item of a text does; every script that is read from a text comes
about in such steps. -/

namespace TupleLogic

/-! ## Parts of forms -/

/-- A form in the place of a term, and the names of the variables around it. -/
structure Part where
  bound : List String
  form : SExpr

namespace SExpr

/-- The name that a binding gives to a variable. -/
def bindingName? : SExpr → Option String
  | .list [.symbol name, _] => some name
  | _ => none

/-- The names in scope after some bindings, innermost first. -/
def binding (bindings : List SExpr) (bound : List String) : List String :=
  (bindings.filterMap bindingName?).reverse ++ bound

mutual
/-- A form that stands for a term and all of its parts. -/
def parts (bound : List String) : SExpr → List Part
  | .atom a => [⟨bound, .atom a⟩]
  | .list items => ⟨bound, .list items⟩ :: operandParts bound items

/-- The parts of the operands in a list that stands for a term. -/
def operandParts (bound : List String) : List SExpr → List Part
  | .symbol head :: args =>
    if applied head (args.map shape) then partsAll bound args
    else match args with
      | [.list bindings, body] => parts (binding bindings bound) body
      | [e, yes, no] => parts bound e ++ parts bound yes ++ parts bound no
      | _ => []
  | [.list [_, _, column], tuple] => ⟨bound, column⟩ :: parts bound tuple
  | _ => []

def partsAll (bound : List String) : List SExpr → List Part
  | [] => []
  | e :: es => parts bound e ++ partsAll bound es
end

theorem operandParts_applied {head : String} {args : List SExpr}
    (h : applied head (args.map shape) = true) (bound : List String) :
    operandParts bound (.symbol head :: args) = partsAll bound args := by
  unfold operandParts
  exact if_pos h

theorem operandParts_quantified (q : Quantifier) (bindings : List SExpr) (body : SExpr)
    (bound : List String) : operandParts bound [.symbol q.spelling, .list bindings, body] =
      parts (binding bindings bound) body := by
  have hquantifier : ¬ applied q.spelling ([.list bindings, body].map shape) = true := by
    simp [applied, shape, Quantifier.ofSpelling?_spelling]
  rw [operandParts, if_neg hquantifier]

theorem operandParts_conditional (e yes no : SExpr) (bound : List String) :
    operandParts bound [.symbol "ite", e, yes, no] =
      parts bound e ++ parts bound yes ++ parts bound no := by
  have hconditional : ¬ applied "ite" ([e, yes, no].map shape) = true := by simp [applied]
  rw [operandParts, if_neg hconditional]

/-- The body of a definition, inside of its parameters. -/
def definition? : SExpr → Option Part
  | .list [.symbol command, .symbol _, .list parameters, _, body] =>
    if command = "define-fun" then some ⟨binding parameters [], body⟩ else none
  | _ => none

def assertion? : SExpr → Option Part
  | .list [.symbol command, body] => if command = "assert" then some ⟨[], body⟩ else none
  | _ => none

theorem definition?_eq_none {command : String} (h : command ≠ "define-fun") (args : List SExpr) :
    (SExpr.list (.symbol command :: args)).definition? = none := by
  unfold definition?
  split
  · rename_i hlist
    cases hlist
    exact if_neg h
  · rfl

theorem assertion?_eq_none {command : String} (h : command ≠ "assert") (args : List SExpr) :
    (SExpr.list (.symbol command :: args)).assertion? = none := by
  unfold assertion?
  split
  · rename_i hlist
    cases hlist
    exact if_neg h
  · rfl

/-- What a text defines and then what it asserts. -/
def bodies (items : List SExpr) : List Part :=
  items.filterMap definition? ++ items.filterMap assertion?

end SExpr

def Part.parts (p : Part) : List Part := p.form.parts p.bound

theorem Term.subterms_int (n : Int) : (Term.int n).subterms = [.int n] := by
  simp [Term.subterms]

/-! ## Bodies of scripts -/

def Declaration.body? : Declaration → Option Term
  | .definition _ _ _ body => some body
  | _ => none

namespace Script

def definedBodies (s : Script) : List Term := s.arena.toList.filterMap Declaration.body?

/-- What the script defines and then what it asserts. -/
def bodies (s : Script) : List Term := s.definedBodies ++ s.assertions.map (·.formula)

theorem definedBodies_addVariable (s : Script) (name : String) (sort : TermSort) :
    (s.addVariable name sort).2.definedBodies = s.definedBodies := by
  simp [definedBodies, addVariable, Declaration.body?]

theorem definedBodies_add (s : Script) (d : Declaration) :
    (s.add d).definedBodies = s.definedBodies ++ d.body?.toList := by
  simp only [definedBodies, add, register, Array.toList_push, List.filterMap_append]
  cases hbody : d.body? <;> simp [hbody]

/-- `t` extends `s` without a new definition or assertion. -/
structure Enriches (s t : Script) : Prop where
  grows : s.Grows t
  definedBodies : t.definedBodies = s.definedBodies
  assertions : t.assertions = s.assertions

section Enriches

variable {s t u : Script}

theorem Enriches.refl (s : Script) : s.Enriches s := ⟨.refl s, rfl, rfl⟩

theorem Enriches.trans (h : s.Enriches t) (h' : t.Enriches u) : s.Enriches u :=
  ⟨h.grows.trans h'.grows, h'.definedBodies.trans h.definedBodies,
    h'.assertions.trans h.assertions⟩

theorem enriches_addVariable (s : Script) (name : String) (sort : TermSort) :
    s.Enriches (s.addVariable name sort).2 :=
  ⟨grows_addVariable s name sort, definedBodies_addVariable s name sort, rfl⟩

theorem enriches_add {d : Declaration} (h : s.lookup d.name = none) (hbody : d.body? = none) :
    s.Enriches (s.add d) :=
  ⟨grows_add h, by rw [definedBodies_add, hbody, Option.toList_none, List.append_nil], rfl⟩

theorem enriches_declareSort {name : String} {arity : Nat}
    (h : s.declareSort name arity = .ok t) : s.Enriches t ∧ t.index = s.index := by
  have hgrows := grows_declareSort h
  obtain ⟨_, rfl⟩ := declareSort_eq_ok.mp h
  exact ⟨⟨hgrows, rfl, rfl⟩, rfl⟩

end Enriches

namespace Reader

/-! ## Steps -/

/-- What reading a part does: the part of the term that is made of a form, and the
script before and after. -/
inductive Step (bound : List String) : SExpr → Term → Script → Script → Prop
  | literal {r : Script} (b : Bool) : Step bound (.symbol (toString b)) (.bool b) r r
  | inner {r : Script} {name : String} {id : DeclId} : isLiteral name = false → name ∈ bound →
      Step bound (.symbol name) (.ref id) r r
  | declared {r : Script} {name : String} {id : DeclId} : isLiteral name = false → name ∉ bound →
      r.lookup name = some id → Step bound (.symbol name) (.ref id) r r
  | made {r : Script} {name sort : String} : isLiteral name = false → name ∉ bound →
      solverSort? name = some sort → r.declaresSort sort = true → r.lookup name = none →
      Step bound (.symbol name) (.ref r.nextId) r (r.add (.constant name (.named sort)))
  | numeral {r : Script} (n : Nat) : Step bound (.numeral n) (.int n) r r
  | negative {r : Script} (n : Nat) :
      Step bound (.list [.symbol "-", .numeral n]) (.int (-n)) r r
  | emptySet {r : Script} {e : SExpr} {sort : TermSort} : readSort r e = .ok sort →
      Step bound (.list [.symbol "as", .symbol "emptyset", e]) (.emptySet sort) r r
  | fullSet {r : Script} {e : SExpr} {sort : TermSort} : readSort r e = .ok sort →
      Step bound (.list [.symbol "as", .symbol "univset", e]) (.fullSet sort) r r
  | annotated {r r' : Script} {name : String} {e : SExpr} {sort : TermSort} {t : Term} :
      isSolverName name = true → readSort r e = .ok sort → Reads (solverValue name sort) r t r' →
      Step bound (.list [.symbol "as", .symbol name, e]) t r r'
  | application {r : Script} {head : String} {args : List SExpr} {ts : List Term} {t : Term} :
      applied head (args.map SExpr.shape) = true → ts.length = args.length →
      Applies r head ts t → Step bound (.list (.symbol head :: args)) t r r
  | quantified {r r' : Script} {q : Quantifier} {bindings : List SExpr} {vars : Scope}
      {body : SExpr} {b : Term} : Reads (bindings.mapM readBinding) r vars r' →
      Step bound (.list [.symbol q.spelling, .list bindings, body])
        (.quantified q (vars.map Prod.snd) b) r r'
  | conditional {r : Script} {e yes no : SExpr} {c a b : Term} :
      Step bound (.list [.symbol "ite", e, yes, no]) (.ite c a b) r r
  | selection {r : Script} {column : Nat} {tuple : SExpr} {b : Term} :
      Step bound (.list [.list [.symbol "_", .symbol BinaryOp.select.spelling, .numeral column],
        tuple]) (.select column b) r r

/-- Parts that are read one after the other. -/
inductive Steps : List Part → List Term → Script → Script → Prop
  | nil {r : Script} : Steps [] [] r r
  | cons {p : Part} {ps : List Part} {t : Term} {ts : List Term} {r r₁ r' : Script} :
      Step p.bound p.form t r r₁ → Steps ps ts r₁ r' → Steps (p :: ps) (t :: ts) r r'

section Steps

variable {r r₁ r' : Script} {scope : Scope} {bound : List String} {e : SExpr} {t : Term}
  {name : String}

theorem Steps.single (h : Step bound e t r r') : Steps [⟨bound, e⟩] [t] r r' := .cons h .nil

theorem Steps.append {ps qs : List Part} {ts us : List Term} (h : Steps ps ts r r₁)
    (h' : Steps qs us r₁ r') : Steps (ps ++ qs) (ts ++ us) r r' := by
  induction h with
  | nil => exact h'
  | cons hstep _ ih => exact .cons hstep (ih h')

/-! ## Reading in steps -/

theorem enriches_binding {p : String × DeclId} (h : Reads (readBinding e) r p r') :
    e.bindingName? = some p.1 ∧ r.Enriches r' ∧ r'.index = r.index := by
  unfold readBinding at h
  split at h
  · obtain ⟨sort, _, hread⟩ := bind_eq_ok.mp h
    obtain ⟨rfl, rfl⟩ := Prod.mk.inj (pure_eq_ok.mp hread)
    exact ⟨rfl, enriches_addVariable r _ sort, rfl⟩
  · cases h

theorem enriches_bindings {es : List SExpr} {vars : Scope}
    (h : Reads (es.mapM readBinding) r vars r') :
    es.filterMap SExpr.bindingName? = vars.map Prod.fst ∧ r.Enriches r' ∧ r'.index = r.index := by
  induction es generalizing r vars with
  | nil =>
    obtain ⟨rfl, rfl⟩ := reads_pure.mp h
    exact ⟨rfl, .refl _, rfl⟩
  | cons e es ih =>
    rw [List.mapM_cons] at h
    obtain ⟨p, r₁, hp, hrest⟩ := reads_bind.mp h
    obtain ⟨ps, r₂, hps, hpure⟩ := reads_bind.mp hrest
    obtain ⟨rfl, rfl⟩ := reads_pure.mp hpure
    obtain ⟨hname, henriches, hindex⟩ := enriches_binding hp
    obtain ⟨hnames, henriches', hindex'⟩ := ih hps
    refine ⟨?_, henriches.trans henriches', hindex'.trans hindex⟩
    rw [List.filterMap_cons_some hname, hnames, List.map_cons]

theorem binding_eq_scope {es : List SExpr} {vars : Scope}
    (h : Reads (es.mapM readBinding) r vars r') (scope : Scope) :
    SExpr.binding es (scope.map Prod.fst) = (vars.reverse ++ scope).map Prod.fst := by
  rw [SExpr.binding, (enriches_bindings h).1, List.map_append, List.map_reverse]

theorem lookup_scope_eq_none_iff : scope.lookup name = none ↔ name ∉ scope.map Prod.fst := by
  induction scope with
  | nil => simp
  | cons p scope ih =>
    rw [List.lookup_cons, List.map_cons, List.mem_cons, not_or, ← ih]
    by_cases hname : name = p.1
    · simp [hname]
    · have hne : (name == p.1) = false := beq_eq_false_iff_ne.mpr hname
      rw [hne]
      exact (and_iff_right hname).symm

theorem step_readSymbol (h : Reads (readSymbol scope name) r t r') :
    Step (scope.map Prod.fst) (.symbol name) t r r' := by
  rcases denote_or_new_of_readSymbol h with ⟨hdenote, rfl⟩ |
    ⟨hliteral, hnone, hfree, sort, hsolver, hsort, rfl, rfl⟩
  · by_cases hliteral : isLiteral name = true
    · simp only [isLiteral, Bool.or_eq_true, decide_eq_true_eq] at hliteral
      rcases hliteral with rfl | rfl
      · cases hdenote
        exact .literal true
      · cases hdenote
        exact .literal false
    · rw [Bool.not_eq_true] at hliteral
      rw [denote_eq hliteral] at hdenote
      obtain ⟨id, hid, rfl⟩ := Option.map_eq_some_iff.mp hdenote
      cases hscope : scope.lookup name with
      | none =>
        rw [hscope] at hid
        exact .declared hliteral (lookup_scope_eq_none_iff.mp hscope) hid
      | some v => exact .inner hliteral (List.mem_map_of_mem (mem_of_lookup hscope))
  · exact .made hliteral (lookup_scope_eq_none_iff.mp hnone) hsolver hsort hfree

theorem Step.subterms_symbol (h : Step bound (.symbol name) t r r') : t.subterms = [t] := by
  cases h <;> simp [Term.subterms]

theorem step_readAnnotated (h : Reads (readAnnotated name e) r t r') :
    Step bound (.list [.symbol "as", .symbol name, e]) t r r' ∧ t.subterms = [t] := by
  obtain ⟨sort, hsort, hread⟩ := reads_annotated.mp h
  rcases hread with ⟨rfl, _, rfl, rfl⟩ | ⟨rfl, _, rfl, rfl⟩ | ⟨hsolver, hvalue⟩
  · exact ⟨.emptySet hsort, by simp [Term.subterms]⟩
  · exact ⟨.fullSet hsort, by simp [Term.subterms]⟩
  · refine ⟨.annotated hsolver hsort hvalue, ?_⟩
    rcases reads_solverValue.mp hvalue with ⟨id, _, rfl, _⟩ | ⟨_, rfl, _⟩
    · simp [Term.subterms]
    · simp [Term.subterms]

theorem subterms_applies {head : String} {ts : List Term} (h : Applies r head ts t) :
    t.subterms = t :: Term.subtermsAll ts := by
  rcases applies_cases h with ⟨op, a, rfl, rfl⟩ | ⟨op, a, b, _, rfl, rfl⟩ | ⟨op, _, rfl⟩ |
    ⟨_, _, rfl⟩
  · simp [Term.subterms, Term.subtermsAll]
  · simp [Term.subterms, Term.subtermsAll]
  · rw [Term.subterms]
  · rw [Term.subterms]

/-- A part is read before its operands. -/
theorem steps_cases : TermCases
    (fun scope e r t r' => Steps (e.parts (scope.map Prod.fst)) t.subterms r r')
    (fun scope es r ts r' =>
      Steps (SExpr.partsAll (scope.map Prod.fst) es) (Term.subtermsAll ts) r r') where
  symbol h := by
    have hstep := step_readSymbol h
    rw [SExpr.parts, hstep.subterms_symbol]
    exact .single hstep
  numeral {_ n _ _ _} h := by
    obtain ⟨_, rfl, rfl⟩ := reads_readInt.mp h
    rw [SExpr.parts, Term.subterms_int]
    exact .single (.numeral n)
  negative {_ n _ _ _} h := by
    obtain ⟨_, rfl, rfl⟩ := reads_readInt.mp h
    rw [SExpr.parts, Term.subterms_int]
    exact .single (.negative n)
  annotated h := by
    obtain ⟨hstep, hsubterms⟩ := step_readAnnotated h
    rw [SExpr.parts, hsubterms]
    exact .single hstep
  application happlied hlength hts happlies := by
    rw [SExpr.parts, SExpr.operandParts_applied happlied, subterms_applies happlies]
    exact .cons (.application happlied hlength happlies) hts
  quantified {scope _ _ _ _ _ _ _ _} hbound _ hb := by
    rw [← binding_eq_scope hbound scope] at hb
    rw [SExpr.parts, SExpr.operandParts_quantified, Term.subterms]
    exact .cons (.quantified hbound) hb
  conditional hc ha hb := by
    rw [SExpr.parts, SExpr.operandParts_conditional, Term.subterms]
    exact .cons .conditional ((hc.append ha).append hb)
  selection {_ column _ _ _ _} _ hb := by
    rw [SExpr.parts, SExpr.operandParts, Term.select, Term.subterms, Term.subterms_int]
    exact .cons .selection (.cons (.numeral column) hb)
  nil := .nil
  cons _ ht hts := by
    rw [SExpr.partsAll, Term.subtermsAll]
    exact ht.append hts

theorem steps_readTerm (h : Reads (readTerm scope e) r t r') :
    Steps (e.parts (scope.map Prod.fst)) t.subterms r r' :=
  steps_cases.term h

theorem Step.enriches (h : Step bound e t r r') : r.Enriches r' := by
  cases h with
  | made _ _ _ _ hfree => exact enriches_add hfree rfl
  | annotated _ _ hvalue =>
    rcases reads_solverValue.mp hvalue with ⟨_, _, _, rfl⟩ | ⟨hfree, _, rfl⟩
    · exact .refl _
    · exact enriches_add hfree rfl
  | quantified hvars => exact (enriches_bindings hvars).2.1
  | _ => exact .refl _

theorem Steps.enriches {ps : List Part} {ts : List Term} (h : Steps ps ts r r') :
    r.Enriches r' := by
  induction h with
  | nil => exact .refl _
  | cons hstep _ ih => exact hstep.enriches.trans ih

end Steps

/-- The part of a term was read from this form, on the way to the script. -/
def ReadAs (s : Script) (p : Part) (t : Term) : Prop :=
  ∃ r r', Step p.bound p.form t r r' ∧ r'.Grows s

theorem ReadAs.grows {s s' : Script} {p : Part} {t : Term} (h : ReadAs s p t)
    (hg : s.Grows s') : ReadAs s' p t := by
  obtain ⟨r, r', hstep, hr⟩ := h
  exact ⟨r, r', hstep, hr.trans hg⟩

theorem Steps.readAs {ps : List Part} {ts : List Term} {r r' s : Script} (h : Steps ps ts r r')
    (hg : r'.Grows s) : List.Forall₂ (ReadAs s) ps ts := by
  induction h with
  | nil => exact .nil
  | cons hstep hsteps ih => exact .cons ⟨_, _, hstep, hsteps.enriches.grows.trans hg⟩ (ih hg)

/-! ## Texts -/

section Texts

variable {r r' : Script} {dialect : Dialect} {name : Option String} {items : List SExpr}

/-- What every item keeps, a text keeps. -/
theorem run_induction {P : List SExpr → Script → Prop}
    (hstep : ∀ {seen name item r r'}, P seen r → Executes name item r r' → P (seen ++ [item]) r')
    {counts result : List (String × Nat)} {seen : List SExpr} (hr : P seen r)
    (h : Reads (readCommands dialect name counts items) r result r') : P (seen ++ items) r' := by
  induction items generalizing name counts seen r with
  | nil =>
    rw [List.append_nil]
    exact (reads_pure.mp h).2 ▸ hr
  | cons item items ih =>
    rw [List.append_cons]
    unfold readCommands at h
    split at h
    · rename_i text
      have hitem : Executes name (.atom (.comment text)) r r := .comment text
      exact ih (hstep hr hitem) h
    · rename_i sort count
      have hitem : Executes name (.atom (.cardinality sort count)) r r := .cardinality sort count
      exact ih (hstep hr hitem) h
    · obtain ⟨_, r₁, hcommand, hrest⟩ := reads_bind.mp h
      exact ih (hstep hr (executes_readCommand hcommand)) hrest
    · cases h

theorem grows_attach (counts : List (String × Nat)) (r : Script) : r.Grows (attach counts r) := by
  refine ⟨⟨id, id⟩, fun {n} hn => ?_⟩
  simp only [declaresSort, sortDeclaration?, List.find?_isSome, decide_eq_true_eq, attach] at hn ⊢
  obtain ⟨d, hd, rfl⟩ := hn
  refine ⟨_, List.mem_map_of_mem hd, ?_⟩
  split <;> rfl

end Texts

end Reader

open Reader

/-- A script that is read from a text has whatever each item keeps. -/
theorem read_induction {P : List SExpr → Script → Prop} (hempty : P [] empty)
    (hstep : ∀ {seen name item r r'}, P seen r → Executes name item r r' → P (seen ++ [item]) r')
    {dialect : Dialect} {text : String} {s : Script} (h : read dialect text = .ok s) :
    ∃ items counts r, SExpr.ofText text = .ok items ∧ P (unwrap items) r ∧
      s = attach counts r := by
  rw [read_eq_ofText] at h
  obtain ⟨items, hitems, hscript⟩ := bind_eq_ok.mp h
  rw [ofSExprs_eq_attach] at hscript
  obtain ⟨⟨counts, r⟩, hr, hs⟩ := bind_eq_ok.mp hscript
  exact ⟨items, counts.reverse, r, hitems, run_induction hstep hempty hr, (pure_eq_ok.mp hs).symm⟩

/-! ## Bodies that are read -/

/-- The term was read part by part from the form. -/
def BodyOf (s : Script) (p : Part) (t : Term) : Prop :=
  List.Forall₂ (ReadAs s) p.parts t.subterms

/-- The script defines and asserts what the text does. -/
structure Reflects (items : List SExpr) (s : Script) : Prop where
  definitions : List.Forall₂ s.BodyOf (items.filterMap SExpr.definition?) s.definedBodies
  assertions : List.Forall₂ s.BodyOf (items.filterMap SExpr.assertion?)
    (s.assertions.map (·.formula))

section Reflects

variable {items : List SExpr} {item : SExpr} {r r' s : Script}

theorem bodiesOf_grows {ps : List Part} {ts : List Term} (h : List.Forall₂ r.BodyOf ps ts)
    (hg : r.Grows r') : List.Forall₂ r'.BodyOf ps ts :=
  h.imp fun _ _ hbody => hbody.imp fun _ _ hread => hread.grows hg

/-- An item with the definitions and assertions that it adds. -/
theorem Reflects.snoc (h : Reflects items r) (hg : r.Grows r') (defined asserted : List Term)
    (hdefined : r'.definedBodies = r.definedBodies ++ defined)
    (hasserted : r'.assertions.map (·.formula) = r.assertions.map (·.formula) ++ asserted)
    (hdefinition : List.Forall₂ r'.BodyOf item.definition?.toList defined)
    (hassertion : List.Forall₂ r'.BodyOf item.assertion?.toList asserted) :
    Reflects (items ++ [item]) r' := by
  have hsingle (f : SExpr → Option Part) : [item].filterMap f = (f item).toList := by
    cases hf : f item <;> simp [hf]
  constructor
  · rw [List.filterMap_append, hsingle, hdefined]
    exact List.rel_append (bodiesOf_grows h.definitions hg) hdefinition
  · rw [List.filterMap_append, hsingle, hasserted]
    exact List.rel_append (bodiesOf_grows h.assertions hg) hassertion

/-- An item that adds no body. -/
theorem Reflects.enriched (h : Reflects items r) (he : r.Enriches r')
    (hdefinition : item.definition? = none) (hassertion : item.assertion? = none) :
    Reflects (items ++ [item]) r' := by
  refine h.snoc he.grows [] [] (he.definedBodies.trans (List.append_nil _).symm) ?_ ?_ ?_
  · rw [he.assertions, List.append_nil]
  · rw [hdefinition]
    exact .nil
  · rw [hassertion]
    exact .nil

theorem Reflects.command {command : String} {args : List SExpr} (h : Reflects items r)
    (he : r.Enriches r') (hcommand : command ≠ "define-fun" ∧ command ≠ "assert") :
    Reflects (items ++ [.list (.symbol command :: args)]) r' :=
  h.enriched he (SExpr.definition?_eq_none hcommand.1 args)
    (SExpr.assertion?_eq_none hcommand.2 args)

/-- The body of a definition is read in steps, inside of its parameters. -/
theorem steps_definition {parameters : List SExpr} {vars : Scope} {body : SExpr} {t : Term}
    (hvars : Reads (parameters.mapM readBinding) s vars r)
    (h : Reads (readTerm vars.reverse body) r t r') :
    Steps (body.parts (SExpr.binding parameters [])) t.subterms r r' := by
  have hnames := binding_eq_scope hvars []
  rw [List.append_nil] at hnames
  have hsteps := steps_readTerm h
  rw [← hnames] at hsteps
  exact hsteps

theorem Reflects.step {name : Option String} (h : Reflects items r)
    (hitem : Executes name item r r') : Reflects (items ++ [item]) r' := by
  cases hitem with
  | comment | cardinality => exact h.enriched (.refl _) rfl rfl
  | logic | option => exact h.command (.refl _) (by decide)
  | sort _ hs => exact h.command (enriches_declareSort hs).1 (by decide)
  | function _ _ hfree => exact h.command (enriches_add hfree rfl) (by decide)
  | constant _ hfree => exact h.command (enriches_add hfree rfl) (by decide)
  | @definition _ r₁ r₂ name parameters out body output vars t _ hvars hbody _ hfree =>
    have hsteps := steps_definition hvars hbody
    have henriches := (enriches_bindings hvars).2.1.trans hsteps.enriches
    have hadd : r₂.Grows (r₂.add (.definition name (vars.map Prod.snd) output t)) :=
      grows_add hfree
    refine h.snoc (henriches.grows.trans hadd) [t] [] ?_ ?_ ?_ ?_
    · rw [definedBodies_add, henriches.definedBodies]
      rfl
    · rw [List.append_nil, ← henriches.assertions]
      rfl
    · exact .cons (hsteps.readAs hadd) .nil
    · rw [SExpr.assertion?_eq_none (by decide)]
      exact .nil
  | @assertion _ r₁ body t hbody =>
    have hsteps := steps_readTerm hbody
    have henriches := hsteps.enriches
    have hadd : r₁.Grows (r₁.addAssertion name t) := ⟨extends_addAssertion r₁ name t, id⟩
    refine h.snoc (henriches.grows.trans hadd) [] [t] ?_ ?_ ?_ ?_
    · rw [List.append_nil, ← henriches.definedBodies]
      rfl
    · rw [← henriches.assertions, addAssertion, List.map_append]
      rfl
    · rw [SExpr.definition?_eq_none (by decide)]
      exact .nil
    · exact .cons (hsteps.readAs hadd) .nil

/-- What is read from a text is defined and asserted there, part by part. -/
theorem bodies_of_read {dialect : Dialect} {text : String} (h : read dialect text = .ok s) :
    ∃ items, SExpr.ofText text = .ok items ∧
      List.Forall₂ s.BodyOf (SExpr.bodies (unwrap items)) s.bodies := by
  have hempty : Reflects [] empty := ⟨.nil, .nil⟩
  obtain ⟨items, counts, r, hitems, hr, rfl⟩ := read_induction hempty Reflects.step h
  refine ⟨items, hitems, bodiesOf_grows ?_ (grows_attach counts r)⟩
  exact List.rel_append hr.definitions hr.assertions

end Reflects

end Script

end TupleLogic
