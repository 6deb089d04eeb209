import TupleLogic.Proofs.ReadingSteps

/-! Values that a solver makes up. A text mentions them with their sorts, as in
`(as @v S)`, or by names such as `@uc_S_0` that spell the sort, and declares nothing.
A name stands for one declaration wherever it occurs. Its sort is that of the first
occurrence of the name in the text, be it a command or a mention; the sorts of later
mentions are read, but nothing depends on them. -/

namespace TupleLogic

/-! ## Occurrences of names -/

/-- A place in a text where a name stands for a declaration. -/
inductive Occurrence where
  /-- A command declares the name, with this sort of its values. -/
  | declared (name : String) (output : SExpr)
  /-- A term mentions the name with a sort. -/
  | annotated (name : String) (sort : SExpr)
  /-- A term mentions the name alone. -/
  | bare (name : String)

namespace Occurrence

def name : Occurrence → String
  | .declared n _ | .annotated n _ | .bare n => n

def isMention : Occurrence → Bool
  | .declared _ _ => false
  | .annotated _ _ | .bare _ => true

/-- The sort that is written there, next to the sorts of a script. -/
def sort? (s : Script) : Occurrence → Option TermSort
  | .declared _ e | .annotated _ e => (Script.Reader.readSort s e).toOption
  | .bare n => (Script.Reader.solverSort? n).map .named

/-- The declaration has the name and the sort that are written there, and is a
constant if it was only mentioned. -/
structure Declares (o : Occurrence) (s : Script) (d : Declaration) : Prop where
  name : d.name = o.name
  sort : o.sort? s = some d.sort
  kind : o.isMention = true → d.kind = .constant

end Occurrence

/-- What a part mentions, unless a variable around it has the name. -/
def Part.occurrence? (p : Part) : Option Occurrence :=
  match p.form with
  | .symbol name =>
    if Script.isLiteral name || p.bound.contains name then none else some (.bare name)
  | .list [.symbol head, .symbol name, sort] =>
    if head = "as" ∧ Script.isSolverName name = true then some (.annotated name sort) else none
  | _ => none

def Part.occurrences (p : Part) : List Occurrence := p.parts.filterMap Part.occurrence?

/-- The occurrences in an item of a text. A definition is declared after its body. -/
def SExpr.occurrences : SExpr → List Occurrence
  | .list [.symbol command, body] =>
    if command = "assert" then Part.occurrences ⟨[], body⟩ else []
  | .list [.symbol command, .symbol name, out] =>
    if command = "declare-const" then [.declared name out] else []
  | .list [.symbol command, .symbol name, .list _, out] =>
    if command = "declare-fun" then [.declared name out] else []
  | .list [.symbol command, .symbol name, .list parameters, out, body] =>
    if command = "define-fun" then
      Part.occurrences ⟨binding parameters [], body⟩ ++ [.declared name out]
    else []
  | _ => []

namespace Script

open Reader

/-! ## Sorts in growing scripts -/

section Sorts

variable {r r' : Script}

theorem readSort_mono (hr : ∀ {n}, r.declaresSort n = true → r'.declaresSort n = true)
    {e : SExpr} {sort : TermSort} (h : readSort r e = .ok sort) : readSort r' e = .ok sort := by
  obtain ⟨hlegible, rfl⟩ := legible_of_readSort h
  exact readSort_form hr hlegible

theorem sort?_of_readSort {e : SExpr} {sort : TermSort} (h : readSort r e = .ok sort)
    (hg : r.Grows r') : (readSort r' e).toOption = some sort := by
  rw [readSort_mono hg.sorts h]
  rfl

theorem sort?_grows {o : Occurrence} {sort : TermSort} (h : o.sort? r = some sort)
    (hg : r.Grows r') : o.sort? r' = some sort := by
  cases o with
  | declared name e | annotated name e =>
    have hread : readSort r e = .ok sort := by
      cases hsort : readSort r e with
      | error cause => simp [Occurrence.sort?, hsort, Except.toOption] at h
      | ok sort' => simpa [Occurrence.sort?, hsort, Except.toOption] using h
    exact sort?_of_readSort hread hg
  | bare name => exact h

end Sorts

/-! ## Origins of declarations -/

/-- After these occurrences, every declared name has one, and the first of them is
where its declaration comes from. -/
structure Origins (seen : List Occurrence) (r : Script) : Prop where
  known : ∀ o ∈ seen, (r.lookup o.name).isSome = true
  first : ∀ {name id}, r.lookup name = some id → ∃ o d, seen.find? (·.name = name) = some o ∧
    r.arena[id.index]? = some d ∧ o.Declares r d

section Origins

variable {seen : List Occurrence} {o : Occurrence} {r r' : Script} {d : Declaration}

theorem declares_grows (h : o.Declares r d) (hg : r.Grows r') : o.Declares r' d :=
  ⟨h.name, sort?_grows h.sort hg, h.kind⟩

theorem Origins.grows (h : Origins seen r) (hg : r.Grows r') (hindex : r'.index = r.index) :
    Origins seen r' := by
  have hlookup (name : String) : r'.lookup name = r.lookup name := by
    rw [lookup, hindex, lookup]
  refine ⟨fun o ho => by rw [hlookup]; exact h.known o ho, fun {name id} hid => ?_⟩
  obtain ⟨o, d, ho, hd, hdeclares⟩ := h.first (hlookup name ▸ hid)
  exact ⟨o, d, ho, hg.extension.decl hd, declares_grows hdeclares hg⟩

/-- A name that is declared occurs again. -/
theorem Origins.again (h : Origins seen r) (ho : (r.lookup o.name).isSome = true) :
    Origins (seen ++ [o]) r := by
  refine ⟨List.forall_mem_append.mpr ⟨h.known, List.forall_mem_singleton.mpr ho⟩,
    fun {name id} hid => ?_⟩
  obtain ⟨first, d, hfirst, hd⟩ := h.first hid
  refine ⟨first, d, ?_, hd⟩
  rw [List.find?_append, hfirst, Option.some_or]

/-- A name occurs for the first time, and is declared there. -/
theorem Origins.add (h : Origins seen r) (hfree : r.lookup d.name = none)
    (hdeclares : o.Declares r d) : Origins (seen ++ [o]) (r.add d) := by
  have hg : r.Grows (r.add d) := grows_add hfree
  constructor
  · refine List.forall_mem_append.mpr ⟨fun o ho => ?_, List.forall_mem_singleton.mpr ?_⟩
    · obtain ⟨id, hid⟩ := Option.isSome_iff_exists.mp (h.known o ho)
      rw [hg.extension.lookup hid]
      rfl
    · rw [(lookup_add hfree).mpr (.inr ⟨rfl, hdeclares.name⟩)]
      rfl
  · intro name id hid
    rw [List.find?_append]
    rcases (lookup_add hfree).mp hid with hold | ⟨rfl, rfl⟩
    · obtain ⟨first, d', hfirst, hd, hfirstDeclares⟩ := h.first hold
      refine ⟨first, d', ?_, hg.extension.decl hd, declares_grows hfirstDeclares hg⟩
      rw [hfirst, Option.some_or]
    · -- an earlier occurrence would have declared the name
      have hnew : seen.find? (·.name = d.name) = none := by
        rw [List.find?_eq_none]
        intro o' ho' hname
        have hknown := h.known o' ho'
        rw [of_decide_eq_true hname, hfree] at hknown
        cases hknown
      refine ⟨o, d, ?_, add_getElem? r d, declares_grows hdeclares hg⟩
      rw [hnew, Option.none_or]
      exact List.find?_cons_of_pos (decide_eq_true hdeclares.name.symm)

end Origins

/-! ## Reading occurrences -/

section Steps

variable {seen : List Occurrence} {bound : List String} {e : SExpr} {t : Term} {r r' s : Script}

/-- What the part mentions is what the term refers to. -/
def Refers (s : Script) (p : Part) (t : Term) : Prop :=
  ∀ o, p.occurrence? = some o → ∃ id, t = .ref id ∧ s.lookup o.name = some id

theorem occurrence?_applied {head : String} {args : List SExpr}
    (h : applied head (args.map SExpr.shape) = true) :
    Part.occurrence? ⟨bound, .list (.symbol head :: args)⟩ = none := by
  unfold Part.occurrence?
  split
  · rename_i hform
    cases hform
  · rename_i hform
    cases hform
    have hhead : head ≠ "as" := by simpa [applied, SExpr.shape] using h
    exact if_neg fun has => hhead has.1
  · rfl

/-- A part mentions no name, or one that is declared, or one that is declared there. -/
theorem Reader.Step.mention (h : Step bound e t r r') :
    (Part.occurrence? ⟨bound, e⟩ = none ∧ r.Grows r' ∧ r'.index = r.index) ∨
    (∃ o id, Part.occurrence? ⟨bound, e⟩ = some o ∧ r.lookup o.name = some id ∧ t = .ref id ∧
      r' = r) ∨
    (∃ o d, Part.occurrence? ⟨bound, e⟩ = some o ∧ r.lookup d.name = none ∧ o.Declares r d ∧
      t = .ref r.nextId ∧ r' = r.add d) := by
  cases h with
  | literal b => exact .inl ⟨by cases b <;> rfl, .refl r, rfl⟩
  | inner _ hbound => exact .inl ⟨by simp [Part.occurrence?, hbound], .refl r, rfl⟩
  | @declared _ name id hliteral hbound hid =>
    have hmention : Part.occurrence? ⟨bound, .symbol name⟩ = some (.bare name) := by
      simp [Part.occurrence?, hliteral, hbound]
    exact .inr (.inl ⟨_, id, hmention, hid, rfl, rfl⟩)
  | @made _ name sort hliteral hbound hsolver hsort hfree =>
    have hmention : Part.occurrence? ⟨bound, .symbol name⟩ = some (.bare name) := by
      simp [Part.occurrence?, hliteral, hbound]
    refine .inr (.inr ⟨_, .constant name (.named sort), hmention, hfree, ⟨rfl, ?_, fun _ => rfl⟩,
      rfl, rfl⟩)
    simp [Occurrence.sort?, hsolver, Declaration.sort]
  | @annotated _ _ name e sort _ hname hsort hvalue =>
    have hmention : Part.occurrence? ⟨bound, .list [.symbol "as", .symbol name, e]⟩ =
        some (.annotated name e) := by
      simp [Part.occurrence?, hname]
    rcases reads_solverValue.mp hvalue with ⟨id, hid, ht, hr⟩ | ⟨hfree, ht, hr⟩
    · exact .inr (.inl ⟨_, id, hmention, hid, ht, hr⟩)
    · refine .inr (.inr ⟨_, .constant name sort, hmention, hfree, ⟨rfl, ?_, fun _ => rfl⟩, ht, hr⟩)
      rw [Occurrence.sort?, hsort]
      rfl
  | application happlied => exact .inl ⟨occurrence?_applied happlied, .refl r, rfl⟩
  | quantified hvars =>
    obtain ⟨_, henriches, hindex⟩ := enriches_bindings hvars
    exact .inl ⟨rfl, henriches.grows, hindex⟩
  | conditional => exact .inl ⟨by simp [Part.occurrence?], .refl r, rfl⟩
  | _ => exact .inl ⟨rfl, .refl r, rfl⟩

theorem Reader.Step.origins (hstep : Step bound e t r r') (h : Origins seen r) :
    Origins (seen ++ (Part.occurrence? ⟨bound, e⟩).toList) r' := by
  rcases hstep.mention with ⟨hnone, hg, hindex⟩ | ⟨o, id, ho, hid, _, rfl⟩ |
    ⟨o, d, ho, hfree, hdeclares, _, rfl⟩
  · rw [hnone, Option.toList_none, List.append_nil]
    exact h.grows hg hindex
  · rw [ho]
    exact h.again (by rw [hid]; rfl)
  · rw [ho]
    exact h.add hfree hdeclares

theorem Reader.Step.refers (hstep : Step bound e t r r') (hg : r'.Grows s) :
    Refers s ⟨bound, e⟩ t := by
  intro o ho
  rcases hstep.mention with ⟨hnone, _⟩ | ⟨o', id, ho', hid, rfl, rfl⟩ |
    ⟨o', d, ho', hfree, hdeclares, rfl, rfl⟩
  · rw [hnone] at ho
    cases ho
  · obtain rfl := Option.some.inj (ho'.symm.trans ho)
    exact ⟨id, rfl, hg.extension.lookup hid⟩
  · obtain rfl := Option.some.inj (ho'.symm.trans ho)
    have hid := (lookup_add hfree).mpr (.inr ⟨rfl, hdeclares.name⟩)
    exact ⟨r.nextId, rfl, hg.extension.lookup hid⟩

theorem Reader.Steps.origins {ps : List Part} {ts : List Term} (hsteps : Steps ps ts r r')
    (h : Origins seen r) : Origins (seen ++ ps.filterMap Part.occurrence?) r' := by
  induction hsteps generalizing seen with
  | nil => simpa using h
  | @cons p ps t ts r r₁ r' hstep _ ih =>
    have hcons : (p :: ps).filterMap Part.occurrence? =
        p.occurrence?.toList ++ ps.filterMap Part.occurrence? := by
      cases ho : p.occurrence? <;> simp [ho]
    rw [hcons, ← List.append_assoc]
    exact ih (hstep.origins h)

theorem Origins.silent {item : SExpr} (h : Origins seen r) (hitem : item.occurrences = []) :
    Origins (seen ++ item.occurrences) r := by
  rw [hitem, List.append_nil]
  exact h

theorem Reader.Executes.origins {name : Option String} {item : SExpr}
    (hitem : Executes name item r r') (h : Origins seen r) :
    Origins (seen ++ item.occurrences) r' := by
  cases hitem with
  | comment | cardinality | option => exact h.silent rfl
  | logic => exact h.silent (by simp [SExpr.occurrences])
  | sort _ hs =>
    obtain ⟨henriches, hindex⟩ := enriches_declareSort hs
    exact (h.grows henriches.grows hindex).silent (by simp [SExpr.occurrences])
  | function _ hout hfree =>
    refine h.add hfree ⟨rfl, ?_, by simp [Occurrence.isMention]⟩
    rw [Occurrence.sort?, hout]
    rfl
  | constant hout hfree =>
    refine h.add hfree ⟨rfl, ?_, by simp [Occurrence.isMention]⟩
    rw [Occurrence.sort?, hout]
    rfl
  | @definition _ r₁ r₂ name parameters out body output vars t hout hvars hread _ hfree =>
    have hsteps := steps_definition hvars hread
    obtain ⟨_, henriches, hindex⟩ := enriches_bindings hvars
    have hbody := hsteps.origins (h.grows henriches.grows hindex)
    have hgrows := henriches.grows.trans hsteps.enriches.grows
    have hitem : (SExpr.list [.symbol "define-fun", .symbol name, .list parameters, out,
        body]).occurrences = Part.occurrences ⟨SExpr.binding parameters [], body⟩ ++
          [.declared name out] := rfl
    rw [hitem, ← List.append_assoc]
    exact hbody.add hfree ⟨rfl, sort?_of_readSort hout hgrows, by simp [Occurrence.isMention]⟩
  | @assertion _ r₁ body t hread =>
    have hadd : r₁.Grows (r₁.addAssertion name t) := ⟨extends_addAssertion r₁ name t, id⟩
    exact ((steps_readTerm hread).origins h).grows hadd rfl

end Steps

section Texts

variable {dialect : Dialect} {text : String} {s : Script}

theorem BodyOf.refers {p : Part} {t : Term} (h : s.BodyOf p t) :
    List.Forall₂ (Refers s) p.parts t.subterms := by
  refine h.imp fun q u hread => ?_
  obtain ⟨r, r', hstep, hg⟩ := hread
  exact hstep.refers hg

theorem origins_of_read (h : read dialect text = .ok s) :
    ∃ items, SExpr.ofText text = .ok items ∧
      Origins ((unwrap items).flatMap SExpr.occurrences) s := by
  have hempty : Origins (([] : List SExpr).flatMap SExpr.occurrences) empty :=
    ⟨List.forall_mem_nil _, fun hid => by cases hid⟩
  have hstep {seen : List SExpr} {name : Option String} {item : SExpr} {r r' : Script}
      (hr : Origins (seen.flatMap SExpr.occurrences) r) (hitem : Executes name item r r') :
      Origins ((seen ++ [item]).flatMap SExpr.occurrences) r' := by
    rw [List.flatMap_append, List.flatMap_singleton]
    exact hitem.origins hr
  obtain ⟨items, counts, r, hitems, hr, rfl⟩ := read_induction
    (P := fun seen r => Origins (seen.flatMap SExpr.occurrences) r) hempty hstep h
  exact ⟨items, hitems, hr.grows (grows_attach counts r) rfl⟩

/-- Next to what is declared, a value is accepted with any sort. -/
theorem reads_mention {scope : Scope} {name : String} {id : DeclId} {e : SExpr}
    {sort : TermSort} (hname : isSolverName name = true) (hid : s.lookup name = some id)
    (hsort : readSort s e = .ok sort) :
    Reads (readTerm scope (.list [.symbol "as", .symbol name, e])) s (.ref id) s := by
  rw [readTerm, readForm_annotated]
  have hvalue : Reads (solverValue name sort) s (.ref id) s :=
    reads_solverValue.mpr (.inl ⟨id, hid, rfl, rfl⟩)
  exact reads_annotated.mpr ⟨sort, hsort, .inr (.inr ⟨hname, hvalue⟩)⟩

/-- In every script that is read, each mention of a name that no variable around it has
is a reference to the declaration of that name, whatever sort is written with it. The
declaration has the sort of the first occurrence of its name in the text, and is a
constant if that is a mention. Later mentions are not held against it: next to the
script, every value in it is accepted with any sort. -/
theorem read_mentions (h : read dialect text = .ok s) :
    ∃ items, SExpr.ofText text = .ok items ∧
      List.Forall₂ (fun p t => List.Forall₂ (Refers s) p.parts t.subterms)
        (SExpr.bodies (unwrap items)) s.bodies ∧
      (∀ o ∈ (unwrap items).flatMap SExpr.occurrences, ∃ first id d,
        ((unwrap items).flatMap SExpr.occurrences).find? (·.name = o.name) = some first ∧
        s.lookup o.name = some id ∧ s.arena[id.index]? = some d ∧ first.Declares s d) ∧
      ∀ {scope : Scope} {name : String} {id : DeclId} {e : SExpr} {sort : TermSort},
        isSolverName name = true → s.lookup name = some id → readSort s e = .ok sort →
        Reads (readTerm scope (.list [.symbol "as", .symbol name, e])) s (.ref id) s := by
  obtain ⟨items, hitems, hbodies⟩ := bodies_of_read h
  obtain ⟨items', hitems', horigins⟩ := origins_of_read h
  obtain rfl := Except.ok.inj (hitems.symm.trans hitems')
  refine ⟨items, hitems, hbodies.imp fun _ _ hbody => hbody.refers, fun o ho => ?_, reads_mention⟩
  obtain ⟨id, hid⟩ := Option.isSome_iff_exists.mp (horigins.known o ho)
  obtain ⟨first, d, hfirst, hd, hdeclares⟩ := horigins.first hid
  exact ⟨first, id, d, hfirst, hid, hd, hdeclares⟩

end Texts

/-- A value that is mentioned with two sorts. -/
def relabelling : List SExpr := [
  .list [.symbol "declare-sort", .symbol "A", .numeral 0],
  .list [.symbol "declare-sort", .symbol "B", .numeral 0],
  .list [.symbol "assert", .list [.symbol "=", .list [.symbol "as", .symbol "@v", .symbol "A"],
    .list [.symbol "as", .symbol "@v", .symbol "B"]]]]

def relabellingText : String :=
  "(declare-sort A 0) (declare-sort B 0) (assert (= (as @v A) (as @v B)))"

def relabelled : Script where
  sorts := [⟨"A", 0, none⟩, ⟨"B", 0, none⟩]
  arena := #[.constant "@v" (.named "A")]
  constants := [⟨0⟩]
  index := [("@v", ⟨0⟩)]
  assertions := [⟨none, .binary .eq (.ref ⟨0⟩) (.ref ⟨0⟩)⟩]

theorem ofText_relabelling : SExpr.ofText relabellingText = .ok relabelling := by
  have htokens : Token.ofText relabellingText = .ok (SExpr.tokensAll relabelling) := by
    decide +kernel
  rw [SExpr.ofText, htokens]
  rfl

/-- The second mention is read as the first, with its sort. -/
theorem read_mentions_relabelled :
    read .script relabellingText = .ok relabelled ∧
      Occurrence.annotated "@v" (.symbol "B") ∈ (unwrap relabelling).flatMap SExpr.occurrences ∧
      ∃ first d, ((unwrap relabelling).flatMap SExpr.occurrences).find? (·.name = "@v") = some first ∧
        relabelled.arena[0]? = some d ∧ first.Declares relabelled d ∧ d.sort = .named "A" := by
  have hread : read .script relabellingText = .ok relabelled := by
    rw [read_eq_ofText, ofText_relabelling]
    rfl
  have hmem : Occurrence.annotated "@v" (.symbol "B") ∈
      (unwrap relabelling).flatMap SExpr.occurrences := .tail _ (.head _)
  obtain ⟨items, hitems, _, hmentions, _⟩ := read_mentions hread
  obtain rfl := Except.ok.inj (ofText_relabelling.symm.trans hitems)
  obtain ⟨first, id, d, hfirst, hid, hd, hdeclares⟩ := hmentions _ hmem
  obtain rfl := Option.some.inj hid
  refine ⟨hread, hmem, first, d, hfirst, hd, hdeclares, ?_⟩
  obtain rfl := Option.some.inj hd
  rfl

end Script

end TupleLogic
