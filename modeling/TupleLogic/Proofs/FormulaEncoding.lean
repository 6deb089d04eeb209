import TupleLogic.Proofs.Specimens

/-! Formulas encode as formulas with the same meaning. An encoding of a formula
may add variables to the script and owe witnesses that are declared there; in
every structure that holds an instance the encoding is true exactly where the
formula holds in the instance. One lemma for each construct says so of the
construct, given that it holds of the parts. -/

namespace TupleLogic.Encoding

open Relational Encoder

variable {v : Vocabulary} {scope : Scope} {p q : Progress} {r : Encoded}

structure EncodesFormula (v : Vocabulary) (scope : Scope) (e : Expr) (p : Progress) (r : Encoded)
    (q : Progress) : Prop where
  grows : p.script.AddsVariables q.script
  chain : ∀ {f : Script}, q.script.Extends f →
    Chain f p.script.arena.size q.script.arena.size r.witnesses
  below : ∀ {f : Script}, q.script.Extends f → r.term.Below f q.script.arena.size
  formula : ∀ {f : Script}, r.term.IsFormula f
  truth : ∀ {f : Script} {α E : Type} {ι : α → E} {I : Instance α} {M : Structure E} {env : Env α}
    [Nonempty α], q.script.Extends f → Interprets v f ι I M → Matches ι M scope env →
      (InvolvesInt v.model e → Onto f M) → (r.Truth f M ↔ I.Holds e env)

/-- A formula that draws no variable and owes nothing. -/
theorem encodesFormula_plain {e : Expr} {t : Term}
    (hbelow : ∀ {f : Script}, p.script.Extends f → t.Below f p.script.arena.size)
    (hformula : ∀ {f : Script}, t.IsFormula f)
    (htruth : ∀ {f : Script} {α E : Type} {ι : α → E} {I : Instance α} {M : Structure E}
      {env : Env α}, p.script.Extends f → Interprets v f ι I M → Matches ι M scope env →
        (t.Holds f M ↔ I.Holds e env)) : EncodesFormula v scope e p ⟨t, []⟩ p where
  grows := .refl _
  chain _ := .nil (Nat.le_refl _)
  below := hbelow
  formula := hformula
  truth hf hM hs _ := htruth hf hM hs

/-- Closing a formula keeps its meaning. -/
theorem EncodesFormula.close {e : Expr} {t : Term} (h : EncodesFormula v scope e p r q)
    (hc : r.close = .ok t) : EncodesFormula v scope e p ⟨t, []⟩ q where
  grows := h.grows
  chain _ := .nil h.grows.extension.size_le
  below hf := Encoded.close_below (h.chain hf) (h.below hf) hc
  formula := by
    rw [Encoded.close_eq (h.chain (.refl _)), Except.ok.injEq] at hc
    subst hc
    split
    · exact h.formula
    · exact fun _ _ => ⟨_, rfl⟩
  truth hf hM hs honto :=
    (Encoded.close_holds (h.chain hf) hc).trans (h.truth hf hM hs honto)

/-- What encodes `e` in a scope gives formulas with its meaning, wherever it
is run. -/
def Meaning (v : Vocabulary) (scope : Scope) (e : Expr) (enc : Encoder Encoded) : Prop :=
  ∀ p r q, Declared v p.script → ScopeIn p.script scope → Returns enc p r q →
    EncodesFormula v scope e p r q

theorem Meaning.closed {e : Expr} {enc : Encoder Encoded} {t : Term} (h : Meaning v scope e enc)
    (hv : Declared v p.script) (hs : ScopeIn p.script scope) (ht : Returns (formula enc) p t q) :
    EncodesFormula v scope e p ⟨t, []⟩ q := by
  obtain ⟨r, hr, hc⟩ := returns_formula.mp ht
  exact (h p r q hv hs hr).close hc

/-- A closed formula means the same to whoever starts before and ends after it. -/
theorem EncodesFormula.widen {e : Expr} {t : Term} {p' q' : Progress}
    (h : EncodesFormula v scope e p ⟨t, []⟩ q) (hp : p'.script.AddsVariables p.script)
    (hq : q.script.AddsVariables q'.script) : EncodesFormula v scope e p' ⟨t, []⟩ q' where
  grows := (hp.trans h.grows).trans hq
  chain _ := .nil ((hp.trans h.grows).trans hq).extension.size_le
  below hf := (h.below (hq.extension.trans hf)).mono hq.extension.size_le
  formula := h.formula
  truth hf := h.truth (hq.extension.trans hf)

/-! ## Connectives -/

/-- Formulas that are encoded one after the other, with all that they owe. -/
structure EncodesAll (v : Vocabulary) (scope : Scope) (es : List Expr) (p : Progress)
    (rs : List Encoded) (q : Progress) : Prop where
  grows : p.script.AddsVariables q.script
  chain : ∀ {f : Script}, q.script.Extends f →
    Chain f p.script.arena.size q.script.arena.size (rs.flatMap Encoded.witnesses)
  below : ∀ {f : Script}, q.script.Extends f → ∀ r ∈ rs, r.term.Below f q.script.arena.size
  formula : ∀ {f : Script}, ∀ r ∈ rs, r.term.IsFormula f
  truth : ∀ {f : Script} {α E : Type} {ι : α → E} {I : Instance α} {M : Structure E} {env : Env α}
    [Nonempty α], q.script.Extends f → Interprets v f ι I M → Matches ι M scope env →
      ((∃ e ∈ es, InvolvesInt v.model e) → Onto f M) →
        (Owes f (rs.flatMap Encoded.witnesses) (fun N => ∀ r ∈ rs, r.term.Holds f N) M ↔
          ∀ e ∈ es, I.Holds e env)

theorem encodesAll_nil : EncodesAll v scope [] p [] p where
  grows := .refl _
  chain _ := .nil (Nat.le_refl _)
  below _ := nofun
  formula := nofun
  truth _ _ _ _ := by simp [Owes]

theorem encodesAll_cons {s : Progress} {e : Expr} {es : List Expr} {rs : List Encoded}
    (hv : Declared v p.script) (hs : ScopeIn p.script scope)
    (h : EncodesFormula v scope e p r s) (hrest : EncodesAll v scope es s rs q) :
    EncodesAll v scope (e :: es) p (r :: rs) q where
  grows := h.grows.trans hrest.grows
  chain hf := (h.chain (hrest.grows.extension.trans hf)).append (hrest.chain hf)
  below hf := List.forall_mem_cons.mpr
    ⟨(h.below (hrest.grows.extension.trans hf)).mono hrest.grows.extension.size_le, hrest.below hf⟩
  formula := List.forall_mem_cons.mpr ⟨h.formula, hrest.formula⟩
  truth {f α E ι I M env _} hf hM hmatch honto := by
    have hsf := hrest.grows.extension.trans hf
    have hpf := h.grows.extension.trans hsf
    simp only [List.flatMap_cons, List.forall_mem_cons]
    rw [← h.truth hsf hM hmatch fun hi => honto ⟨e, List.mem_cons_self, hi⟩]
    refine owes_append_and (h.chain hsf) (hrest.chain hf) (Term.holds_congr (h.below hsf)) ?_
    intro N hN
    have hN := hN.agrees
    refine hrest.truth hf (hM.agrees hv hpf hN) (hmatch.agrees hs hN) ?_
    rintro ⟨e', he', hi⟩
    exact (honto ⟨e', List.mem_cons_of_mem _ he', hi⟩).agrees hv hpf hN

theorem encodesAll_returns {es : List Expr} {encs : List (Encoder Encoded)} {rs : List Encoded}
    (hv : Declared v p.script) (hs : ScopeIn p.script scope)
    (henc : List.Forall₂ (Meaning v scope) es encs) (h : Returns (encs.mapM id) p rs q) : EncodesAll v scope es p rs q := by
  induction henc generalizing p rs with
  | nil =>
    obtain ⟨rfl, rfl⟩ := returns_mapM_nil.mp h
    exact encodesAll_nil
  | cons he _ ih =>
    obtain ⟨r, s, rs', hr, hrs, rfl⟩ := returns_mapM_cons.mp h
    have h' := he _ _ _ hv hs hr
    exact encodesAll_cons hv hs h' (ih (hv.extend h'.grows.extension)
      (hs.extend h'.grows.extension) hrs)

/-- The conjunction of the terms, with what all of them owe, is true where all
the formulas hold. -/
theorem EncodesAll.conjunction {es : List Expr} {rs : List Encoded} {e : Expr}
    (h : EncodesAll v scope es p rs q)
    (he : ∀ {α : Type} {I : Instance α} {env : Env α}, I.Holds e env ↔ ∀ e' ∈ es, I.Holds e' env)
    (hint : ∀ e' ∈ es, InvolvesInt v.model e' → InvolvesInt v.model e) :
    EncodesFormula v scope e p
      ⟨conjNontrivial (rs.map Encoded.term), rs.flatMap Encoded.witnesses⟩ q where
  grows := h.grows
  chain := h.chain
  below hf := below_conjNontrivial (List.forall_mem_map.mpr (h.below hf))
  formula {f} := by
    refine Term.isFormula_conj fun t ht => ?_
    obtain ⟨r, hr, rfl⟩ := List.mem_map.mp (List.mem_filter.mp ht).1
    exact h.formula r hr
  truth {f α E ι I M env _} hf hM hmatch honto := by
    rw [he, ← h.truth hf hM hmatch fun ⟨e', he', hi⟩ => honto (hint e' he' hi)]
    refine owes_congr (h.chain hf) fun N _ => ?_
    rw [holds_conjNontrivial, List.forall_mem_map]

theorem Meaning.conjunction {es : List Expr} {encs : List (Encoder Encoded)} {e : Expr}
    (henc : List.Forall₂ (Meaning v scope) es encs)
    (he : ∀ {α : Type} {I : Instance α} {env : Env α}, I.Holds e env ↔ ∀ e' ∈ es, I.Holds e' env)
    (hint : ∀ e' ∈ es, InvolvesInt v.model e' → InvolvesInt v.model e) :
    Meaning v scope e (conjunction encs) := by
  intro p r q hv hs h
  simp only [Encoding.conjunction, returns_bind, returns_liftTerm, returns_pure] at h
  obtain ⟨rs, _, hrs, t, _, ⟨hc, rfl⟩, rfl, rfl⟩ := h
  exact ((encodesAll_returns hv hs henc hrs).conjunction he hint).close hc

/-- Closed formulas, encoded one after the other. -/
theorem closed_returns {es : List Expr} {encs : List (Encoder Encoded)} {ts : List Term}
    (hv : Declared v p.script) (hs : ScopeIn p.script scope)
    (henc : List.Forall₂ (Meaning v scope) es encs) (h : Returns (encs.mapM formula) p ts q) :
    p.script.AddsVariables q.script ∧
      List.Forall₂ (fun e t => EncodesFormula v scope e p ⟨t, []⟩ q) es ts := by
  induction henc generalizing p ts with
  | nil =>
    obtain ⟨rfl, rfl⟩ := returns_mapM_nil.mp h
    exact ⟨.refl _, .nil⟩
  | cons he _ ih =>
    obtain ⟨t, s, ts', ht, hts, rfl⟩ := returns_mapM_cons.mp h
    have hfirst := he.closed hv hs ht
    obtain ⟨hgrows, hrest⟩ := ih (hv.extend hfirst.grows.extension)
      (hs.extend hfirst.grows.extension) hts
    refine ⟨hfirst.grows.trans hgrows, .cons (hfirst.widen (.refl _) hgrows) ?_⟩
    exact hrest.imp fun _ _ h => h.widen hfirst.grows (.refl _)

theorem Meaning.disjunction {es : List Expr} {encs : List (Encoder Encoded)} {e : Expr}
    (henc : List.Forall₂ (Meaning v scope) es encs)
    (he : ∀ {α : Type} {I : Instance α} {env : Env α}, I.Holds e env ↔ ∃ e' ∈ es, I.Holds e' env)
    (hint : ∀ e' ∈ es, InvolvesInt v.model e' → InvolvesInt v.model e) :
    Meaning v scope e (disjunction encs) := by
  intro p r q hv hs h
  simp only [Encoding.disjunction, returns_bind, returns_pure] at h
  obtain ⟨ts, _, hts, rfl, rfl⟩ := h
  obtain ⟨hgrows, hall⟩ := closed_returns hv hs henc hts
  have hmem : ∀ t ∈ ts, ∃ e' ∈ es, EncodesFormula v scope e' p ⟨t, []⟩ q := by
    intro t ht
    obtain ⟨i, hi, rfl⟩ := List.getElem_of_mem ht
    have hi' : i < es.length := hall.length_eq ▸ hi
    exact ⟨es[i], List.getElem_mem hi', hall.get hi' hi⟩
  refine ⟨hgrows, fun _ => .nil hgrows.extension.size_le, fun hf => ?_, ?_, ?_⟩
  · refine Term.below_disj fun t ht => ?_
    obtain ⟨_, _, h⟩ := hmem t ht
    exact h.below hf
  · refine Term.isFormula_disj fun t ht => ?_
    obtain ⟨_, _, h⟩ := hmem t ht
    exact h.formula
  · intro f α E ι I M env _ hf hM hmatch honto
    rw [he]
    refine (Term.holds_disj ts).trans ?_
    clear hmem he hts henc
    induction hall with
    | nil => simp
    | cons h _ ih =>
      simp only [List.exists_mem_cons_iff]
      refine or_congr (h.truth hf hM hmatch fun hi => honto (hint _ List.mem_cons_self hi)) ?_
      exact ih fun e' he' => hint e' (List.mem_cons_of_mem _ he')

/-- Operators on two closed formulas. -/
theorem Meaning.connective {a b e : Expr} {lhs rhs : Encoder Encoded} {build : Term → Term → Term}
    (ha : Meaning v scope a lhs) (hb : Meaning v scope b rhs)
    (hbelow : ∀ {f n x y}, Term.Below f n x → Term.Below f n y → (build x y).Below f n)
    (hformula : ∀ {f x y}, (build x y).IsFormula f)
    (he : ∀ {f : Script} {α E : Type} {I : Instance α} {M : Structure E} {env : Env α} {x y : Term},
      x.IsFormula f → y.IsFormula f → (x.Holds f M ↔ I.Holds a env) →
        (y.Holds f M ↔ I.Holds b env) → ((build x y).Holds f M ↔ I.Holds e env))
    (hint : ∀ e' ∈ [a, b], InvolvesInt v.model e' → InvolvesInt v.model e) :
    Meaning v scope e (connective lhs rhs build) := by
  intro p r q hv hs h
  simp only [Encoding.connective, returns_bind, returns_pure] at h
  obtain ⟨x, s, hx, y, _, hy, rfl, rfl⟩ := h
  have hx := ha.closed hv hs hx
  have hy := hb.closed (hv.extend hx.grows.extension) (hs.extend hx.grows.extension) hy
  have hx' := hx.widen (.refl _) hy.grows
  have hy' := hy.widen hx.grows (.refl _)
  refine ⟨hx'.grows, fun _ => .nil hx'.grows.extension.size_le, fun hf => ?_, hformula, ?_⟩
  · exact hbelow (hx'.below hf) (hy'.below hf)
  · intro f α E ι I M env _ hf hM hmatch honto
    exact he hx'.formula hy'.formula
      (hx'.truth hf hM hmatch fun hi => honto (hint a (by simp) hi))
      (hy'.truth hf hM hmatch fun hi => honto (hint b (by simp) hi))

/-! ## Comparisons of relations -/

theorem Meaning.ofRelations {a b e : Expr} {cs ds : List ColumnType} {build : Term → Term → Term}
    (hta : HasColumns v.model a cs) (htb : HasColumns v.model b ds)
    (hbelow : ∀ {f n x y}, Term.Below f n x → Term.Below f n y → (build x y).Below f n)
    (hformula : ∀ {f x y}, (build x y).IsFormula f)
    (he : ∀ {f : Script} {α E : Type} {ι : α → E} {I : Instance α} {M : Structure E} {env : Env α}
      {x y : Term}, Function.Injective ι → x.eval f M = relationValue ι (I.denote env a) →
        y.eval f M = relationValue ι (I.denote env b) →
        ((build x y).Holds f M ↔ I.Holds e env)) :
    Meaning v scope e (setOperation (encode v a scope .nested) (encode v b scope .nested) build) := by
  intro p r q hv hs h
  obtain ⟨x, y, rfl, rfl, hx, hy⟩ := returns_operands (plainRelation_encode hta hv hs)
    (plainRelation_encode htb hv hs) h
  refine encodesFormula_plain (fun hf => hbelow (hx.below hf) (hy.below hf)) hformula ?_
  intro f α E ι I M env hf hM hmatch
  exact he hM.injective (hx.value hf hM hmatch) (hy.value hf hM hmatch)

theorem equals_relations {a b : Expr} {cs : List ColumnType} (hta : HasColumns v.model a cs)
    (htb : HasColumns v.model b cs) : Meaning v scope (.binary .equals a b)
      (setOperation (encode v a scope .nested) (encode v b scope .nested) .equals) := by
  refine .ofRelations hta htb (fun hx hy => ⟨hx, hy⟩) (fun _ _ => ⟨_, rfl⟩) ?_
  intro f α E ι I M env x y hι hx hy
  rw [Term.holds_equals, hx, hy, (relationValue_injective hι).eq_iff]
  rfl

theorem subset_relations {a b : Expr} {cs : List ColumnType} (hta : HasColumns v.model a cs)
    (htb : HasColumns v.model b cs) : Meaning v scope (.binary .inside a b)
      (setOperation (encode v a scope .nested) (encode v b scope .nested) .subset) := by
  refine .ofRelations hta htb (fun hx hy => ⟨hx, hy⟩) (fun _ _ => ⟨_, rfl⟩) ?_
  intro f α E ι I M env x y hι hx hy
  rw [Term.holds_subset, hx, hy, relationValue_subset hι]
  rfl

/-- A closed formula, negated. -/
theorem Meaning.negated {a e : Expr} {enc : Encoder Encoded} (h : Meaning v scope a enc)
    (he : ∀ {α : Type} {I : Instance α} {env : Env α}, I.Holds e env ↔ ¬ I.Holds a env)
    (hint : InvolvesInt v.model a → InvolvesInt v.model e) :
    Meaning v scope e (do return ⟨.not (← formula enc), []⟩) := by
  intro p r q hv hs hr
  obtain ⟨t, _, ht, hr⟩ := returns_bind.mp hr
  obtain ⟨rfl, rfl⟩ := returns_pure.mp hr
  have h := h.closed hv hs ht
  refine ⟨h.grows, h.chain, h.below, fun _ _ => ⟨_, rfl⟩, ?_⟩
  intro f α E ι I M env _ hf hM hmatch honto
  rw [he]
  exact not_congr (h.truth hf hM hmatch fun hi => honto (hint hi))

/-! ## Claims about the number of elements -/

/-- A claim about one tuple and a relation, as a term and as a property. -/
structure TupleClaim where
  term : Term → Term → Term
  property : {α : Type} → List (Cell α) → Relation α → Prop
  below : ∀ {f n x y}, Term.Below f n x → Term.Below f n y → (term x y).Below f n
  holds : ∀ {f : Script} {α E : Type} {ι : α → E} {M : Structure E} {x y : Term}
    {cells : List (Cell α)} {r : Relation α}, Function.Injective ι →
    x.eval f M = .datum (.tuple (cells.map (cellDatum ι))) → y.eval f M = relationValue ι r →
      ((term x y).Holds f M ↔ property cells r)

/-- The tuple is an element. -/
def TupleClaim.member : TupleClaim where
  term := Term.member
  property cells r := cells ∈ r
  below hx hy := ⟨hx, hy⟩
  holds hι hx hy := by
    rw [Term.holds_member, hx, hy, TermValue.toDatum_datum, tuple_mem_relationValue hι]

/-- The tuple is the only element. -/
def TupleClaim.only : TupleClaim where
  term tuple set := .equals (.singleton tuple) set
  property cells r := {cells} = r
  below hx hy := ⟨hx, hy⟩
  holds hι hx hy := by
    rw [Term.holds_equals, Term.eval_singleton, hx, hy, TermValue.toDatum_datum,
      ← relationValue_singleton, (relationValue_injective hι).eq_iff]

/-- There is no element but the tuple. -/
def TupleClaim.noOther : TupleClaim where
  term tuple set := .subset set (.singleton tuple)
  property cells r := r ⊆ {cells}
  below hx hy := ⟨hy, hx⟩
  holds hι hx hy := by
    rw [Term.holds_subset, Term.eval_singleton, hx, hy, TermValue.toDatum_datum,
      ← relationValue_singleton, relationValue_subset hι]

/-- A tuple of integers only has the type of its companion sort. -/
theorem eq_replicate_of_all {cs : List ColumnType} {n : Nat} (h : cs.all (· = .int) = true)
    (hn : cs.length = n) : cs = List.replicate n .int := by
  rw [List.eq_replicate_iff]
  exact ⟨hn, fun c hc => by simpa using List.all_eq_true.mp h c hc⟩

/-- One witness for variables from `p` on makes a chain. -/
theorem chain_single {f : Script} {p q : Progress} {w : Witness} (hne : w.vars ≠ [])
    (hpq : p.script.Extends q.script)
    (hfresh : ∀ x ∈ w.vars, p.script.arena.size ≤ x.index ∧ x.index < q.script.arena.size)
    (hbelow : w.guard.Below f q.script.arena.size) :
    Chain f p.script.arena.size q.script.arena.size [w] :=
  .cons hne hpq.size_le hfresh hbelow (.nil (Nat.le_refl _))

theorem truth_single {E : Type} {f : Script} {M : Structure E} {w : Witness} :
    Encoded.Truth ⟨.bool true, [w]⟩ f M ↔
      ∃ vs, M.Fits f w.vars vs ∧ w.guard.Holds f (M.assign w.vars vs) := by
  simp [Encoded.Truth, Owes]

section Claims

variable {c : TupleClaim} {e : Expr} {cs : List ColumnType} {xs : List DeclId} {ts : List Term}
  {set : Term}

/-- What the claim says of a sample. -/
theorem holds_claim {f : Script} {α E : Type} {ι : α → E} {I : Instance α} {M : Structure E}
    {env : Env α} (hset : EncodesRelation v p.script scope e cs set)
    (hsamples : Samples v cs p xs ts q) (hf : q.script.Extends f) (hM : Interprets v f ι I M)
    (hmatch : Matches ι M scope env) {ws : List (TermValue E)} {cells : List (Cell α)}
    (htuple : (Term.nary .tuple ts).eval f (M.assign xs ws) =
      .datum (.tuple (cells.map (cellDatum ι)))) :
    (c.term (.nary .tuple ts) set).Holds f (M.assign xs ws) ↔
      c.property cells (I.denote env e) := by
  have hpf := hsamples.grows.extension.trans hf
  refine c.holds hM.injective htuple ?_
  rw [← hset.value hpf hM hmatch]
  exact (Term.eval_congr set (hset.below hpf) (M.agrees_assign ws fun x hx => (hsamples.fresh x hx).1)).symm

/-- The claim for a sample of the relation is true if it is for some tuple
with the relation's columns. -/
theorem truth_claim {f : Script} {α E : Type} {ι : α → E} {I : Instance α} {M : Structure E}
    {env : Env α} (hset : EncodesRelation v p.script scope e cs set)
    (hsamples : Samples v cs p xs ts q) (hf : q.script.Extends f) (hM : Interprets v f ι I M)
    (hmatch : Matches ι M scope env) (honto : .int ∈ cs → Onto f M) :
    (∃ ws, M.Fits f xs ws ∧ (c.term (.nary .tuple ts) set).Holds f (M.assign xs ws)) ↔
      ∃ cells, cells.map Cell.type = cs ∧ c.property cells (I.denote env e) :=
  exists_sample hsamples hf hM honto (holds_claim hset hsamples hf hM hmatch)

theorem below_claim {f : Script} (hset : EncodesRelation v p.script scope e cs set)
    (hsamples : Samples v cs p xs ts q) (hf : q.script.Extends f) :
    (c.term (.nary .tuple ts) set).Below f q.script.arena.size :=
  c.below (Term.belowAll_iff.mpr (hsamples.below hf))
    ((hset.below (hsamples.grows.extension.trans hf)).mono hsamples.grows.extension.size_le)

/-- The claim together with the element that stands for the tuple. -/
theorem encodesFormula_companion {op : Relational.UnaryOp} {w : IntSort} (hw : w ∈ intSorts)
    (hv : Declared v p.script) (ht : HasColumns v.model e cs)
    (he : ∀ {α : Type} [Nonempty α] {I : Instance α} {env : Env α}, I.Typed v.model →
      (I.Holds (.unary op e) env ↔
        ∃ cells, cells.map Cell.type = cs ∧ c.property cells (I.denote env e)))
    (hset : EncodesRelation v p.script scope e cs set)
    (hsamples : Samples v cs p xs ts q) (hint : cs = List.replicate w.width .int) :
    EncodesFormula v scope (.unary op e) p
      ⟨.bool true, [⟨xs ++ [q.script.nextId], .and (c.term (.nary .tuple ts) set)
        (.equals (w.valueOf (.ref q.script.nextId)) (.nary .tuple ts))⟩]⟩
      (q.withVariable (.named w.sort)) := by
  have hgrows := hsamples.grows.trans (q.withVariable_grows (.named w.sort))
  have hlast : q.script.nextId.index < (q.withVariable (.named w.sort)).script.arena.size := by
    rw [q.withVariable_size]
    exact Nat.lt_succ_self _
  have hsize : q.script.arena.size ≤ (q.withVariable (.named w.sort)).script.arena.size :=
    (q.withVariable_grows (.named w.sort)).extension.size_le
  refine ⟨hgrows, fun hf => ?_, fun _ => trivial, fun _ _ => ⟨_, rfl⟩, ?_⟩
  · have hqf := (q.withVariable_grows (.named w.sort)).extension.trans hf
    refine chain_single (by simp) hgrows.extension (fun x hx => ?_) ?_
    · rcases List.mem_append.mp hx with hx | hx
      · have := hsamples.fresh x hx
        omega
      · rw [List.mem_singleton.mp hx]
        exact ⟨hsamples.grows.extension.size_le, hlast⟩
    · refine ⟨(below_claim hset hsamples hqf).mono hsize, ⟨?_, ?_⟩, trivial⟩
      · exact below_intValue hv (hsamples.grows.extension.trans hqf) hw hlast hgrows.extension.size_le
      · exact Term.belowAll_iff.mpr fun t ht => (hsamples.below hqf t ht).mono hsize
  · intro f α E ι I M env _ hf hM hmatch honto
    have hqf := (q.withVariable_grows (.named w.sort)).extension.trans hf
    have honto' : Onto f M := honto (ht.involvesInt (by
      rw [hint]
      exact List.mem_replicate.mpr ⟨intSorts_width_ne hw, rfl⟩)).unary
    rw [truth_single, he hM.typed, ← truth_claim hset hsamples hqf hM hmatch fun _ => honto']
    subst hint
    exact exists_companion hw hv hsamples hf hM honto' (below_claim hset hsamples hqf)

/-- A claim is made of a sample of the relation, which has a companion if it
consists of two or three integers. -/
theorem witnessed_returns {expr : String} {r : Encoded} (ht : HasColumns v.model e cs)
    (hv : Declared v p.script) (hs : ScopeIn p.script scope)
    (h : Returns (witnessed expr c.term (encode v e scope .nested)) p r q) :
    ∃ set xs ts s, EncodesRelation v p.script scope e cs set ∧ Samples v cs p xs ts s ∧
      ((∃ w ∈ intSorts, cs = List.replicate w.width .int ∧ q = s.withVariable (.named w.sort) ∧
          r = ⟨.bool true, [⟨xs ++ [s.script.nextId], .and (c.term (.nary .tuple ts) set)
            (.equals (w.valueOf (.ref s.script.nextId)) (.nary .tuple ts))⟩]⟩) ∨
        (cs ≠ [.int, .int] ∧ cs ≠ [.int, .int, .int] ∧ q = s ∧
          r = ⟨.bool true, [⟨xs, c.term (.nary .tuple ts) set⟩]⟩)) := by
  rw [witnessed, returns_bind] at h
  obtain ⟨set, _, hset, h⟩ := h
  obtain ⟨rfl, hnone, hset⟩ := plainRelation_encode ht hv hs hset
  simp only [returns_bind, returns_sortOf, hset.sort] at h
  obtain ⟨sort, _, ⟨hsort, rfl⟩, sample, s, hsample, h⟩ := h
  obtain rfl := Except.ok.inj hsort
  obtain ⟨ts, htuple, hall, hsamples⟩ := specimen_returns hv hsample
  simp only [htuple, hall, hnone, List.nil_append] at h
  refine ⟨_, _, ts, s, hset, hsamples, ?_⟩
  split at h
  · rename_i hint
    rw [Bool.and_eq_true, beq_iff_eq, hsamples.length] at hint
    simp only [returns_bind, returns_freshVariable, returns_pure] at h
    obtain ⟨_, _, ⟨rfl, rfl⟩, _, _, ⟨rfl, rfl⟩, rfl, rfl⟩ := h
    exact .inl ⟨binaryInts, by simp [intSorts], eq_replicate_of_all hint.1 hint.2, rfl, rfl⟩
  · rename_i hpair
    split at h
    · rename_i hint
      rw [Bool.and_eq_true, beq_iff_eq, hsamples.length] at hint
      simp only [returns_bind, returns_freshVariable, returns_pure] at h
      obtain ⟨_, _, ⟨rfl, rfl⟩, _, _, ⟨rfl, rfl⟩, rfl, rfl⟩ := h
      exact .inl ⟨ternaryInts, by simp [intSorts], eq_replicate_of_all hint.1 hint.2, rfl, rfl⟩
    · rename_i htriple
      simp only [returns_bind, returns_pure] at h
      obtain ⟨_, _, ⟨rfl, rfl⟩, rfl, rfl⟩ := h
      rw [hsamples.length] at hpair htriple
      refine .inr ⟨?_, ?_, rfl, rfl⟩
      · rintro rfl
        exact hpair rfl
      · rintro rfl
        exact htriple rfl

theorem witnessed_meaning {op : Relational.UnaryOp} {expr : String} (c : TupleClaim)
    (ht : HasColumns v.model e cs)
    (he : ∀ {α : Type} [Nonempty α] {I : Instance α} {env : Env α}, I.Typed v.model →
      (I.Holds (.unary op e) env ↔
        ∃ cells, cells.map Cell.type = cs ∧ c.property cells (I.denote env e))) :
    Meaning v scope (.unary op e) (witnessed expr c.term (encode v e scope .nested)) := by
  intro p r q hv hs h
  obtain ⟨set, xs, ts, s, hset, hsamples, ⟨w, hw, hint, rfl, rfl⟩ | ⟨_, _, rfl, rfl⟩⟩ :=
    witnessed_returns ht hv hs h
  · exact encodesFormula_companion hw hv ht he hset hsamples hint
  · refine ⟨hsamples.grows, fun hf => ?_, fun _ => trivial, fun _ _ => ⟨_, rfl⟩, ?_⟩
    · refine chain_single ?_ hsamples.grows.extension hsamples.fresh
        (below_claim hset hsamples hf)
      rw [ne_eq, ← List.length_eq_zero_iff, hsamples.length, List.length_eq_zero_iff]
      exact HasColumns.ne_nil ht
    · intro f α E ι I M env _ hf hM hmatch honto
      rw [truth_single, he hM.typed]
      exact truth_claim hset hsamples hf hM hmatch fun hi => honto (ht.involvesInt hi).unary

theorem some_meaning {expr : String} (ht : HasColumns v.model e cs) :
    Meaning v scope (.unary .some e) (witnessed expr Term.member (encode v e scope .nested)) := by
  refine witnessed_meaning .member ht fun {α _ I env} hI => ?_
  constructor
  · rintro ⟨cells, hcells⟩
    exact ⟨cells, types_of_mem_denote hI ht cells hcells, hcells⟩
  · rintro ⟨cells, _, hcells⟩
    exact ⟨cells, hcells⟩

theorem one_meaning {expr : String} (ht : HasColumns v.model e cs) :
    Meaning v scope (.unary .one e) (witnessed expr
      (fun tuple set => .equals (.singleton tuple) set) (encode v e scope .nested)) := by
  refine witnessed_meaning .only ht fun {α _ I env} hI => ?_
  constructor
  · rintro ⟨cells, hcells⟩
    have hmem : cells ∈ I.denote env e := hcells ▸ Set.mem_singleton cells
    exact ⟨cells, types_of_mem_denote hI ht cells hmem, hcells.symm⟩
  · rintro ⟨cells, _, hcells⟩
    exact ⟨cells, hcells.symm⟩

/-- There is a tuple for every list of column types. -/
theorem exists_cells {α : Type} [Nonempty α] (cs : List ColumnType) :
    ∃ cells : List (Cell α), cells.map Cell.type = cs := by
  obtain ⟨a⟩ := ‹Nonempty α›
  induction cs with
  | nil => exact ⟨[], rfl⟩
  | cons c cs ih =>
    obtain ⟨cells, rfl⟩ := ih
    cases c with
    | atom => exact ⟨.atom a :: cells, rfl⟩
    | int => exact ⟨.int 0 :: cells, rfl⟩

theorem lone_meaning {expr : String} (ht : HasColumns v.model e cs) :
    Meaning v scope (.unary .lone e) (witnessed expr
      (fun tuple set => .subset set (.singleton tuple)) (encode v e scope .nested)) := by
  refine witnessed_meaning .noOther ht fun {α _ I env} hI => ?_
  constructor
  · intro hsub
    rcases (I.denote env e).eq_empty_or_nonempty with hempty | ⟨cells, hcells⟩
    · obtain ⟨cells, hcells⟩ := exists_cells (α := α) cs
      exact ⟨cells, hcells, fun t ht => by rw [hempty] at ht; exact ht.elim⟩
    · exact ⟨cells, types_of_mem_denote hI ht cells hcells, fun t ht => hsub ht hcells⟩
  · rintro ⟨cells, _, hcells⟩
    exact Set.subsingleton_singleton.anti hcells

theorem forAll_eq_ok {xs : List DeclId} {b t : Term} (h : Term.forAll xs b = .ok t) :
    t = .quantified .all xs b := by
  unfold Term.forAll Term.quantify at h
  split at h
  · cases h
  · exact (Except.ok.inj h).symm

theorem no_meaning {expr : String} (ht : HasColumns v.model e cs) :
    Meaning v scope (.unary .no e) (emptiness expr (encode v e scope .nested)) := by
  intro p r q hv hs h
  rw [emptiness, returns_bind] at h
  obtain ⟨set, _, hset, h⟩ := h
  obtain ⟨rfl, hnone, hset⟩ := plainRelation_encode ht hv hs hset
  simp only [returns_bind, returns_sortOf, hset.sort] at h
  obtain ⟨sort, _, ⟨hsort, rfl⟩, h⟩ := h
  obtain rfl := Except.ok.inj hsort
  rw [if_pos (by rw [hnone]; rfl)] at h
  simp only [returns_bind, returns_liftTerm, returns_pure] at h
  obtain ⟨sample, s, hsample, t, _, ⟨hall, rfl⟩, rfl, rfl⟩ := h
  obtain ⟨ts, htuple, _, hsamples⟩ := specimen_returns hv hsample
  rw [forAll_eq_ok hall, htuple]
  refine ⟨hsamples.grows, fun _ => .nil hsamples.grows.extension.size_le, fun hf => ?_,
    fun _ _ => ⟨_, rfl⟩, ?_⟩
  · exact below_claim (c := .member) hset hsamples hf
  · intro f α E ι I M env _ hf hM hmatch honto
    have hclaim := truth_claim (c := .member) hset hsamples hf hM hmatch
      fun hi => honto (ht.involvesInt hi).unary
    have hempty : I.Holds (.unary .no e) env ↔
        ¬ ∃ cells, cells.map Cell.type = cs ∧ cells ∈ I.denote env e := by
      refine Set.eq_empty_iff_forall_notMem.trans ?_
      refine ⟨fun h ⟨cells, _, hcells⟩ => h cells hcells, fun h cells hcells => h ⟨cells, ?_, hcells⟩⟩
      exact types_of_mem_denote hM.typed ht cells hcells
    rw [hempty]
    refine Iff.trans ?_ (not_congr hclaim)
    rw [not_exists]
    exact forall_congr' fun ws => not_and.symm

end Claims

/-! ## Comparisons of numbers -/

/-- The term has the one integer of `e` as its value, for the witnesses owed;
whatever depends on that integer alone holds if `e` has one for which it does. -/
structure EncodesInt (v : Vocabulary) (scope : Scope) (e : Expr) (p : Progress) (r : Encoded)
    (q : Progress) : Prop where
  grows : p.script.AddsVariables q.script
  chain : ∀ {f : Script}, q.script.Extends f →
    Chain f p.script.arena.size q.script.arena.size r.witnesses
  below : ∀ {f : Script}, q.script.Extends f → r.term.Below f q.script.arena.size
  value : ∀ {f : Script} {α E : Type} {ι : α → E} {I : Instance α} {M : Structure E} {env : Env α},
    q.script.Extends f → Interprets v f ι I M → Matches ι M scope env → Onto f M →
      ∀ {P : Structure E → Prop} {Q : Int → Prop},
        (∀ N, M.Agrees p.script.arena.size N → (P N ↔ Q (r.term.eval f N).toInt)) →
          (Owes f r.witnesses P M ↔ ∃ n, I.denote env e = {[.int n]} ∧ Q n)

theorem denote_uncast {α : Type} (I : Instance α) (env : Env α) (e : Expr) :
    I.denote env e.uncast = I.denote env e := by
  fun_induction Expr.uncast e with
  | case1 e ih | case2 e ih => exact ih
  | case3 e _ _ => rfl

theorem denote_of_literal {α : Type} (I : Instance α) (env : Env α) {e : Expr} {n : Int}
    (h : e.literal? = some n) : I.denote env e = {[.int n]} := by
  unfold Expr.literal? at h
  split at h
  · rename_i k hk
    rw [← denote_uncast, hk, ← Option.some.inj h]
    rfl
  · cases h

theorem intValue_literal {e : Expr} {n : Int} (h : e.literal? = some n) :
    EncodesInt v scope e p ⟨.int n, []⟩ p where
  grows := .refl _
  chain _ := .nil (Nat.le_refl _)
  below _ := trivial
  value {f α E ι I M env} _ _ _ _ P Q hPQ := by
    rw [denote_of_literal I env h]
    refine (hPQ M (.refl _ M)).trans ⟨fun hQ => ⟨n, rfl, hQ⟩, ?_⟩
    rintro ⟨k, hk, hQ⟩
    have hnk : n = k := by simpa using hk
    exact hnk ▸ hQ

theorem intValue_relation {e : Expr} {set : Term} (hv : Declared v p.script)
    (hset : EncodesRelation v p.script scope e [.int] set) :
    EncodesInt v scope e p ⟨.select 0 (unaryInts.valueOf (.ref p.script.nextId)),
      [⟨[p.script.nextId],
        .equals (.singleton (unaryInts.valueOf (.ref p.script.nextId))) set⟩]⟩
      (p.withVariable unaryIntSort) := by
  have hgrows := p.withVariable_grows unaryIntSort
  have hvalue : ∀ {f : Script}, (p.withVariable unaryIntSort).script.Extends f →
      (unaryInts.valueOf (.ref p.script.nextId)).Below f
        (p.withVariable unaryIntSort).script.arena.size := fun hf => by
    refine below_intValue hv (hgrows.extension.trans hf) (by simp [intSorts]) ?_
      hgrows.extension.size_le
    rw [p.withVariable_size]
    exact Nat.lt_succ_self _
  refine ⟨hgrows, fun hf => ?_, fun hf => ⟨trivial, hvalue hf⟩, ?_⟩
  · refine chain_single (by simp) hgrows.extension (by simp [Script.nextId, p.withVariable_size])
      ⟨hvalue hf, ?_⟩
    exact (hset.below (hgrows.extension.trans hf)).mono hgrows.extension.size_le
  · intro f α E ι I M env hf hM hmatch honto P Q hPQ
    have hpf := hgrows.extension.trans hf
    obtain ⟨d, hd, _, heval⟩ := eval_intValue hv hpf (w := unaryInts) (by simp [intSorts])
    have hnew : ∀ w, M.Agrees p.script.arena.size (M.set p.script.nextId w) := fun w =>
      M.agrees_set w (Nat.le_refl _)
    -- With a number for its variable, the guard says that the relation holds just that number.
    have hnumber : ∀ {u : E} {n : Int}, M.meaning d [.datum (.elem u)] = .datum (intTuple [n]) →
        ((Term.equals (.singleton (unaryInts.valueOf (.ref p.script.nextId))) set).Holds f
            (M.set p.script.nextId (.datum (.elem u))) ↔ I.denote env e = {[.int n]}) ∧
          (P (M.set p.script.nextId (.datum (.elem u))) ↔ Q n) := fun {u n} hn => by
      have hval := (heval M p.script.nextId u (Nat.le_refl _)).trans hn
      have hs := Term.eval_congr set (hset.below hpf) (hnew (.datum (.elem u)))
      rw [hset.value hpf hM hmatch] at hs
      constructor
      · rw [Term.holds_equals, Term.eval_singleton, hval, ← hs, eq_comm]
        exact (relationValue_injective hM.injective).eq_iff' (relationValue_singleton _)
      · rw [hPQ _ (hnew _), Term.eval_select, hval]
        exact Iff.rfl
    constructor
    · rintro ⟨ws, hfit, hguard, hP⟩
      obtain ⟨w, _, hw, hnil, rfl⟩ := List.forall₂_cons_left_iff.mp hfit
      cases hnil
      obtain ⟨u, hu, rfl⟩ := hasSort_named.mp ((inDomain_withVariable hf _).mp hw)
      obtain ⟨ns, hns, hm⟩ := hM.values unaryInts (by simp [intSorts]) d hd u hu
      obtain ⟨n, rfl⟩ := List.length_eq_one_iff.mp hns
      exact ⟨n, (hnumber hm).1.mp hguard, (hnumber hm).2.mp hP⟩
    · rintro ⟨n, hn, hQ⟩
      obtain ⟨u, hu, hm⟩ := honto unaryInts (by simp [intSorts]) d hd [n] rfl
      refine ⟨[.datum (.elem u)], .cons ?_ .nil, (hnumber hm).1.mpr hn, (hnumber hm).2.mpr hQ⟩
      exact (inDomain_withVariable hf _).mpr (hasSort_named.mpr ⟨u, hu, rfl⟩)

theorem intValue_returns {e : Expr} (ht : HasColumns v.model e [.int]) (hv : Declared v p.script)
    (hs : ScopeIn p.script scope)
    (h : Returns (intValue v e (encode v e scope .nested)) p r q) : EncodesInt v scope e p r q := by
  unfold intValue at h
  split at h
  · rename_i n hn
    obtain ⟨rfl, rfl⟩ := returns_pure.mp h
    exact intValue_literal hn
  · rw [returns_bind] at h
    obtain ⟨set, _, hset, h⟩ := h
    obtain ⟨rfl, hnone, hset⟩ := plainRelation_encode ht hv hs hset
    simp only [returns_bind, returns_sortOf, hset.sort] at h
    obtain ⟨sort, _, ⟨hsort, rfl⟩, h⟩ := h
    obtain rfl := Except.ok.inj hsort
    split at h
    · simp only [returns_bind, returns_freshVariable, returns_pure, hnone] at h
      obtain ⟨_, _, ⟨rfl, rfl⟩, rfl, rfl⟩ := h
      exact intValue_relation hv hset
    · exact (not_returns_unsupported h).elim

theorem numbers_meaning {op : Relational.BinaryOp} {a b : Expr} {build : Term → Term → Term}
    {rel : Int → Int → Prop} (hta : HasColumns v.model a [.int]) (htb : HasColumns v.model b [.int])
    (hint : InvolvesInt v.model (.binary op a b))
    (hbelow : ∀ {f n x y}, Term.Below f n x → Term.Below f n y → (build x y).Below f n)
    (hformula : ∀ {f x y}, (build x y).IsFormula f)
    (hbuild : ∀ {f : Script} {E : Type} {M : Structure E} {x y : Term},
      (build x y).Holds f M ↔ rel (x.eval f M).toInt (y.eval f M).toInt)
    (he : ∀ {α : Type} {I : Instance α} {env : Env α}, I.Holds (.binary op a b) env ↔
      (I.denote env a).Compares rel (I.denote env b)) :
    Meaning v scope (.binary op a b) (both (intValue v a (encode v a scope .nested))
      (intValue v b (encode v b scope .nested)) build) := by
  intro p r q hv hs h
  obtain ⟨x, s, y, hx, hy, rfl⟩ := returns_both.mp h
  have hx := intValue_returns hta hv hs hx
  have hy := intValue_returns htb (hv.extend hx.grows.extension) (hs.extend hx.grows.extension) hy
  have hxq : ∀ {f}, q.script.Extends f → s.script.Extends f := hy.grows.extension.trans
  refine ⟨hx.grows.trans hy.grows, fun hf => (hx.chain (hxq hf)).append (hy.chain hf), fun hf => ?_,
    hformula, ?_⟩
  · exact hbelow ((hx.below (hxq hf)).mono hy.grows.extension.size_le) (hy.below hf)
  · intro f α E ι I M env _ hf hM hmatch honto
    have hsf := hxq hf
    have hpf := hx.grows.extension.trans hsf
    rw [he, Encoded.Truth, owes_append]
    -- What is owed by `y` says, for each value of `x`, that `b` has a number beyond it.
    rw [hx.value hsf hM hmatch (honto hint) (Q := fun m => ∃ n, I.denote env b = {[.int n]} ∧ rel m n)]
    · unfold Relation.Compares
      constructor
      · rintro ⟨m, hm, n, hn, hrel⟩
        exact ⟨m, n, hm, hn, hrel⟩
      · rintro ⟨m, n, hm, hn, hrel⟩
        exact ⟨m, hm, n, hn, hrel⟩
    · intro N hN
      refine hy.value hf (hM.agrees hv hpf hN) (hmatch.agrees hs hN)
        ((honto hint).agrees hv hpf hN) fun K hK => ?_
      rw [hbuild, Term.eval_congr _ (hx.below hsf) hK]

end TupleLogic.Encoding
