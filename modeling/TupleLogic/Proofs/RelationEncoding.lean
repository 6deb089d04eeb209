import TupleLogic.Proofs.Interpretation
import TupleLogic.Proofs.Returns

/-! Relational expressions that denote relations encode as terms with that
value. Such an encoding draws no name and owes no witness; its term is a
relation of the sort that the columns of the expression say. -/

namespace TupleLogic.Encoding

open Relational Encoder

variable {p q : Progress} {t : Term}

/-! ## Promotion -/

theorem returns_promote_of_decl?_none {u : Term} (h : u.decl? = none) :
    Returns (promote u) p t q ↔ t = u ∧ q = p := by
  rw [promote, h, returns_pure]

theorem promote_ref {id : DeclId} {d : Declaration} (hd : p.script.arena[id.index]? = some d)
    (h : Returns (promote (.ref id)) p t q) :
    q = p ∧ ((∃ e, d.sort = .set e) → t = .ref id) ∧
      (d.sort = .atom → t = .singleton (.nary .tuple [.ref id])) := by
  simp only [promote, Term.decl?, returns_bind, returns_get, returns_liftTerm] at h
  obtain ⟨_, _, ⟨rfl, rfl⟩, d', _, ⟨hd', rfl⟩, h⟩ := h
  simp only [Script.decl, hd, Except.ok.injEq] at hd'
  subst hd'
  split at h
  · rename_i hs
    obtain ⟨rfl, rfl⟩ := returns_pure.mp h
    refine ⟨rfl, fun _ => rfl, fun ha => ?_⟩
    cases hs.symm.trans ha
  · rename_i hs
    obtain ⟨_, rfl⟩ := returns_pure.mp h
    refine ⟨rfl, fun hset => ?_, fun ha => ?_⟩
    · obtain ⟨_, he⟩ := hset
      cases hs.symm.trans he
    · cases hs.symm.trans ha
  · rename_i hset _
    simp only [returns_bind, returns_liftTerm, returns_pure] at h
    obtain ⟨_, _, ⟨ht, rfl⟩, rfl, rfl⟩ := h
    cases ht
    refine ⟨rfl, fun hex => ?_, fun _ => rfl⟩
    obtain ⟨e, he⟩ := hex
    exact (hset e he).elim

/-! ## Sorts of relational terms -/

section Sorts

variable {s : Script} {a b : Term}

theorem mkRelation_sorts {cs : List ColumnType} (h : cs ≠ []) :
    TermSort.mkRelation (cs.map ColumnType.sort) = .ok (relationSort cs) := by
  cases cs with
  | nil => exact absurd rfl h
  | cons c cs => rfl

theorem sortOf_ref {id : DeclId} {d : Declaration} (h : s.arena[id.index]? = some d) :
    s.sortOf (.ref id) = .ok d.sort := by
  simp only [Script.sortOf, Script.decl, h]
  rfl

theorem sortOf_transpose {c d : ColumnType} (h : s.sortOf a = .ok (relationSort [c, d])) :
    s.sortOf (.transpose a) = .ok (relationSort [d, c]) := by
  simp only [Term.transpose, Script.sortOf, h]
  rfl

theorem sortOf_closure {c : ColumnType} (h : s.sortOf a = .ok (relationSort [c, c])) :
    s.sortOf (.closure a) = .ok (relationSort [c, c]) := by
  simp only [Term.closure, Script.sortOf, h]
  change TermSort.closed (.set (.tuple [c.sort, c.sort])) = _
  simp only [TermSort.closed, TermSort.columnsFor]
  change (if c.sort = c.sort then _ else _) = _
  rw [if_pos rfl]
  rfl

theorem sortOf_sameSort {op : BinaryOp} (hop : op ∈ [.union, .intersection, .difference])
    {sort : TermSort} (ha : s.sortOf a = .ok sort) (hb : s.sortOf b = .ok sort) :
    s.sortOf (.binary op a b) = .ok sort := by
  simp only [List.mem_cons, List.not_mem_nil, or_false] at hop
  rcases hop with rfl | rfl | rfl
  all_goals
    simp only [Script.sortOf, ha, hb]
    change (if sort = sort then _ else _) = _
    rw [if_pos rfl]
    rfl

theorem sortOf_product {cs ds : List ColumnType} (hcs : cs ≠ [])
    (ha : s.sortOf a = .ok (relationSort cs)) (hb : s.sortOf b = .ok (relationSort ds)) :
    s.sortOf (.product a b) = .ok (relationSort (cs ++ ds)) := by
  simp only [Term.product, Script.sortOf, ha, hb]
  change TermSort.mkRelation (cs.map ColumnType.sort ++ ds.map ColumnType.sort) = _
  rw [← List.map_append]
  exact mkRelation_sorts (by simp [hcs])

theorem sortOf_join {cs ds : List ColumnType} {c : ColumnType} (hne : cs ++ ds ≠ [])
    (ha : s.sortOf a = .ok (relationSort (cs ++ [c])))
    (hb : s.sortOf b = .ok (relationSort (c :: ds))) :
    s.sortOf (.join a b) = .ok (relationSort (cs ++ ds)) := by
  simp only [Term.join, Script.sortOf, ha, hb]
  change TermSort.joined (relationSort (cs ++ [c])) (relationSort (c :: ds)) = _
  have hlen : ¬ ((cs ++ [c]).map ColumnType.sort).length + ((c :: ds).map ColumnType.sort).length
      ≤ 2 := by
    have := List.length_pos_iff.mpr hne
    simp only [List.length_map, List.length_append, List.length_cons, List.length_nil] at this ⊢
    omega
  have hlast : ((cs ++ [c]).map ColumnType.sort).getLast? = some c.sort := by simp
  have hhead : ((c :: ds).map ColumnType.sort).head? = some c.sort := by simp
  simp only [TermSort.joined, relationSort, TermSort.columnsFor, bind, Except.bind, hlen, if_false,
    hlast, hhead, if_true]
  have hcols : ((cs ++ [c]).map ColumnType.sort).dropLast ++ ((c :: ds).map ColumnType.sort).tail =
      (cs ++ ds).map ColumnType.sort := by simp
  rw [hcols]
  exact mkRelation_sorts hne

end Sorts

/-! ## Values of relational terms -/

/-- The term, made in the script `s`, is a relation with the columns `cs` that
has the value of `e` in every structure for a script that extends `s`. -/
structure EncodesRelation (v : Vocabulary) (s : Script) (scope : Scope) (e : Expr)
    (cs : List ColumnType) (t : Term) : Prop where
  sort : s.sortOf t = .ok (relationSort cs)
  below : ∀ {f : Script}, s.Extends f → t.Below f s.arena.size
  value : ∀ {f : Script} {α E : Type} {ι : α → E} {I : Instance α} {M : Structure E} {env : Env α},
    s.Extends f → Interprets v f ι I M → Matches ι M scope env →
      t.eval f M = relationValue ι (I.denote env e)

/-- The encoding gave such a term, owes nothing and left the progress as it was. -/
def PlainRelation (v : Vocabulary) (scope : Scope) (e : Expr) (cs : List ColumnType)
    (p : Progress) (r : Encoded) (q : Progress) : Prop :=
  q = p ∧ r.witnesses = [] ∧ EncodesRelation v p.script scope e cs r.term

theorem HasColumns.ne_nil {m : Model} {e : Expr} {cs : List ColumnType} (h : HasColumns m e cs) :
    cs ≠ [] := by
  induction h with
  | toInt _ ih | toSigned _ ih | union _ _ ih _ | intersection _ _ ih _ | difference _ _ ih _ =>
    exact ih
  | join _ _ hne _ _ => exact hne
  | product _ _ ih _ => simp [ih]
  | _ => simp

section Constructs

variable {v : Vocabulary} {scope : Scope} {e a b : Expr} {cs : List ColumnType} {r : Encoded}

theorem returns_sigRelation {id : SigId} {t : Term} :
    Returns (v.sigRelation id) p t q ↔
      ∃ d, v.signatures[id.index]? = some d ∧ t = .ref d ∧ q = p := by
  unfold Vocabulary.sigRelation
  cases v.signatures[id.index]? with
  | none => simp [not_returns_unsupported]
  | some d => simp [returns_pure]

theorem returns_fieldRelation {id : FieldId} {t : Term} :
    Returns (v.fieldRelation id) p t q ↔ ∃ d, v.field? id = some d ∧ t = .ref d ∧ q = p := by
  unfold Vocabulary.fieldRelation Vocabulary.field?
  cases (v.fields[id.sig.index]?).bind fun fs => fs[id.index]? with
  | none => simp [not_returns_unsupported]
  | some d => simp [returns_pure]

/-- A relation that is found by its place in the vocabulary. -/
theorem relation_of_found {lookup : Encoder Term} {P : DeclId → Prop}
    (hfound : ∀ {t s}, Returns lookup p t s → ∃ d, P d ∧ t = .ref d ∧ s = p)
    (h : Returns (relation do return ⟨← lookup, []⟩) p r q) :
    ∃ d, P d ∧ Returns (relation (return ⟨.ref d, []⟩)) p r q := by
  obtain ⟨_, _, t, hr, ht, rfl⟩ := returns_relation.mp h
  obtain ⟨_, _, hu, hr⟩ := returns_bind.mp hr
  obtain ⟨rfl, rfl⟩ := returns_pure.mp hr
  obtain ⟨d, hd, rfl, rfl⟩ := hfound hu
  exact ⟨d, hd, returns_relation.mpr ⟨_, _, t, returns_pure.mpr ⟨rfl, rfl⟩, ht, rfl⟩⟩

/-- A declared relation. -/
theorem plainRelation_ref {name : String} {d : DeclId}
    (hd : HasFunction p.script name [] (relationSort cs) d)
    (hm : ∀ {f : Script} {α E : Type} {ι : α → E} {I : Instance α} {M : Structure E} {env : Env α},
      Interprets v f ι I M → M.meaning d [] = relationValue ι (I.denote env e))
    (h : Returns (relation (return ⟨.ref d, []⟩)) p r q) : PlainRelation v scope e cs p r q := by
  obtain ⟨_, _, t, hr, ht, rfl⟩ := returns_relation.mp h
  obtain ⟨rfl, rfl⟩ := returns_pure.mp hr
  obtain ⟨rfl, hset, _⟩ := promote_ref hd.2 ht
  have ht' : t = .ref d := hset ⟨_, rfl⟩
  subst ht'
  exact ⟨rfl, rfl, sortOf_ref hd.2, fun _ => hd.index_lt, fun _ hM _ => hm hM⟩

theorem returns_both {lhs rhs : Encoder Encoded} {build : Term → Term → Term} :
    Returns (both lhs rhs build) p r q ↔ ∃ a s b, Returns lhs p a s ∧ Returns rhs s b q ∧
      r = ⟨build a.term b.term, a.witnesses ++ b.witnesses⟩ := by
  simp only [both, returns_bind, returns_pure]
  constructor
  · rintro ⟨a, s, ha, b, _, hb, rfl, rfl⟩
    exact ⟨a, s, b, ha, hb, rfl⟩
  · rintro ⟨a, s, b, ha, hb, rfl⟩
    exact ⟨a, s, ha, b, q, hb, rfl, rfl⟩

/-- An operator on two relations gives a compound term, which stays as it is
where a relation is meant. -/
theorem relation_of_compound {enc : Encoder Encoded} (h : Returns (relation enc) p r q)
    (hc : ∀ {r' q'}, Returns enc p r' q' → r'.term.decl? = none) : Returns enc p r q := by
  obtain ⟨r', q', t, hr, ht, rfl⟩ := returns_relation.mp h
  obtain ⟨rfl, rfl⟩ := (returns_promote_of_decl?_none (hc hr)).mp ht
  exact hr

/-- Runs the two operands of an operator that are plain relations. -/
theorem returns_operands {cs ds : List ColumnType} {build : Term → Term → Term} {pos : Position}
    (iha : ∀ {r q}, Returns (relation (encode v a scope pos)) p r q →
      PlainRelation v scope a cs p r q)
    (ihb : ∀ {r q}, Returns (relation (encode v b scope pos)) p r q →
      PlainRelation v scope b ds p r q)
    (h : Returns (setOperation (encode v a scope pos) (encode v b scope pos) build) p r q) :
    ∃ x y, q = p ∧ r = ⟨build x y, []⟩ ∧ EncodesRelation v p.script scope a cs x ∧
      EncodesRelation v p.script scope b ds y := by
  obtain ⟨x, _, y, hx, hy, rfl⟩ := returns_both.mp h
  obtain ⟨rfl, hxw, hx⟩ := iha hx
  obtain ⟨rfl, hyw, hy⟩ := ihb hy
  exact ⟨x.term, y.term, rfl, by rw [hxw, hyw]; rfl, hx, hy⟩

theorem returns_binaryRelation {expr : String} {enc : Encoder Encoded}
    (h : Returns (binaryRelation expr enc) p r q) : Returns (relation enc) p r q := by
  simp only [binaryRelation, returns_bind, returns_sortOf] at h
  obtain ⟨r', q', hr, sort, _, ⟨_, rfl⟩, h⟩ := h
  split at h
  · obtain ⟨rfl, rfl⟩ := returns_pure.mp h
    exact hr
  · exact (not_returns_unsupported h).elim

theorem returns_joinRelations {expr : String} {lhs rhs : Encoder Encoded}
    (h : Returns (joinRelations expr lhs rhs) p r q) :
    Returns (setOperation lhs rhs .join) p r q := by
  simp only [joinRelations, returns_bind, returns_sortOf] at h
  obtain ⟨a, s, ha, b, _, hb, sort, _, ⟨_, rfl⟩, h⟩ := h
  refine returns_both.mpr ⟨a, s, b, ha, ?_⟩
  split at h
  · simp only [returns_bind, returns_sortOf] at h
    obtain ⟨_, _, ⟨_, rfl⟩, h⟩ := h
    split at h
    · obtain ⟨_, _, hu, _⟩ := returns_bind.mp h
      exact (not_returns_unsupported hu).elim
    · obtain ⟨rfl, rfl⟩ := returns_pure.mp h
      exact ⟨hb, rfl⟩
  · obtain ⟨rfl, rfl⟩ := returns_pure.mp h
    exact ⟨hb, rfl⟩

/-- A set operation on two relations of the same columns. -/
theorem plainRelation_setOperation {op : BinaryOp} {pos : Position} {e : Expr}
    (hop : op ∈ [.union, .intersection, .difference])
    (iha : ∀ {r q}, Returns (relation (encode v a scope pos)) p r q →
      PlainRelation v scope a cs p r q)
    (ihb : ∀ {r q}, Returns (relation (encode v b scope pos)) p r q →
      PlainRelation v scope b cs p r q)
    (hval : ∀ {f : Script} {α E : Type} {ι : α → E} {I : Instance α} {M : Structure E}
      {env : Env α} {x y : Term}, Function.Injective ι →
      x.eval f M = relationValue ι (I.denote env a) →
      y.eval f M = relationValue ι (I.denote env b) →
      (Term.binary op x y).eval f M = relationValue ι (I.denote env e))
    (h : Returns (relation (setOperation (encode v a scope pos) (encode v b scope pos)
      (.binary op))) p r q) : PlainRelation v scope e cs p r q := by
  have h := relation_of_compound h fun hr => by
    obtain ⟨_, _, _, _, _, rfl⟩ := returns_both.mp hr
    rfl
  obtain ⟨x, y, rfl, rfl, hx, hy⟩ := returns_operands iha ihb h
  refine ⟨rfl, rfl, sortOf_sameSort hop hx.sort hy.sort, ?_, ?_⟩
  · exact fun hf => ⟨hx.below hf, hy.below hf⟩
  · exact fun hf hM hs => hval hM.injective (hx.value hf hM hs) (hy.value hf hM hs)

/-- An operator on one relation of two columns. -/
theorem plainRelation_map {expr : String} {ds : List ColumnType} {f : Term → Term} {pos : Position}
    (ih : ∀ {r q}, Returns (relation (encode v a scope pos)) p r q →
      PlainRelation v scope a cs p r q)
    (hc : ∀ x, (f x).decl? = none)
    (he : ∀ {x}, EncodesRelation v p.script scope a cs x →
      EncodesRelation v p.script scope e ds (f x))
    (h : Returns (relation (do return (← binaryRelation expr (encode v a scope pos)).map f)) p r q) :
    PlainRelation v scope e ds p r q := by
  have h := relation_of_compound h fun hr => by
    obtain ⟨_, _, _, hr⟩ := returns_bind.mp hr
    obtain ⟨rfl, rfl⟩ := returns_pure.mp hr
    exact hc _
  obtain ⟨x, _, hx, hr⟩ := returns_bind.mp h
  obtain ⟨rfl, rfl⟩ := returns_pure.mp hr
  obtain ⟨rfl, hw, hx⟩ := ih (returns_binaryRelation hx)
  exact ⟨rfl, hw, he hx⟩

theorem plainRelation_var {x : String} {id : DeclId} (hs : ScopeIn p.script scope)
    (hx : scope.lookup x = some id) (h : Returns (relation (return ⟨.ref id, []⟩)) p r q) :
    PlainRelation v scope (.var x) [.atom] p r q := by
  obtain ⟨_, _, t, hr, ht, rfl⟩ := returns_relation.mp h
  obtain ⟨rfl, rfl⟩ := returns_pure.mp hr
  have hmem : (x, id) ∈ scope := by
    obtain ⟨l₁, l₂, rfl, _⟩ := List.lookup_eq_some_iff.mp hx
    simp
  obtain ⟨d, hd, hsort⟩ := hs (x, id) hmem
  obtain ⟨rfl, _, hatom⟩ := promote_ref hd ht
  have ht' := hatom hsort
  subst ht'
  refine ⟨rfl, rfl, ?_, ?_, ?_⟩
  · have hdecl : q.script.decl id = .ok d := by rw [Script.decl, hd]
    simp only [Term.singleton, Script.sortOf, Script.sortsOf, hdecl]
    change TermSort.mkRelation [d.sort] = _
    rw [hsort]
    rfl
  · exact fun _ => ⟨hs.index_lt hmem, trivial⟩
  · intro f α E ι I M env _ _ hM
    obtain ⟨a, ha, hm⟩ := hM.lookup hx
    have hden : I.denote env (.var x) = {[.atom a]} := by
      ext t
      simp [Instance.denote, Relation.ofAtoms, ha, eq_comm]
    rw [hden, relationValue_singleton, Term.eval_singleton, Term.eval_tuple]
    simp only [List.map_cons, List.map_nil, Term.eval_ref, hm, TermValue.toDatum_datum, cellDatum]

theorem plainRelation_int {n : Int}
    (h : Returns (relation (do return ⟨.singleton (← liftTerm (Term.mkTuple [.int n])), []⟩)) p r q) :
    PlainRelation v scope (.int n) [.int] p r q := by
  have h := relation_of_compound h fun hr => by
    obtain ⟨_, _, _, hr⟩ := returns_bind.mp hr
    obtain ⟨rfl, rfl⟩ := returns_pure.mp hr
    rfl
  obtain ⟨t, _, ht, hr⟩ := returns_bind.mp h
  obtain ⟨rfl, rfl⟩ := returns_pure.mp hr
  obtain ⟨ht, rfl⟩ := returns_liftTerm.mp ht
  cases ht
  refine ⟨rfl, rfl, rfl, fun _ => ⟨trivial, trivial⟩, fun _ _ _ => ?_⟩
  rw [Instance.denote, relationValue_singleton, Term.eval_singleton, Term.eval_tuple]
  rfl

end Constructs

theorem plainRelation_encode {v : Vocabulary} {scope : Scope} {e : Expr} {cs : List ColumnType}
    (ht : HasColumns v.model e cs) {pos : Position} {p q : Progress} {r : Encoded}
    (hv : Declared v p.script) (hs : ScopeIn p.script scope)
    (h : Returns (relation (encode v e scope pos)) p r q) : PlainRelation v scope e cs p r q := by
  induction ht generalizing pos r q with
  | sig id =>
    rw [encode] at h
    obtain ⟨d, hd, h⟩ := relation_of_found returns_sigRelation.mp h
    obtain ⟨g, _, hg⟩ := hv.sig hd
    exact plainRelation_ref hg (fun hM => hM.sig hd) h
  | @field id f hf =>
    rw [encode] at h
    obtain ⟨d, hd, h⟩ := relation_of_found returns_fieldRelation.mp h
    obtain ⟨g, f', _, hf', hg⟩ := hv.field hd
    obtain rfl := Option.some.inj (hf.symm.trans hf')
    exact plainRelation_ref hg (fun hM => hM.field hd) h
  | univ =>
    simp only [encode, Vocabulary.builtinRelation, pure_bind] at h
    exact plainRelation_ref hv.univ (fun hM => hM.univ) h
  | none =>
    simp only [encode, Vocabulary.builtinRelation, pure_bind] at h
    exact plainRelation_ref hv.none (fun hM => hM.none) h
  | iden =>
    simp only [encode, Vocabulary.builtinRelation, pure_bind] at h
    exact plainRelation_ref hv.iden (fun hM => hM.iden) h
  | var x =>
    rw [encode] at h
    split at h
    · rename_i id hx
      exact plainRelation_var hs hx h
    · obtain ⟨_, _, _, hr, _⟩ := returns_relation.mp h
      exact (not_returns_throw hr).elim
  | int _ => exact plainRelation_int h
  | toInt _ ih | toSigned _ ih =>
    obtain ⟨hq, hw, he⟩ := ih h
    exact ⟨hq, hw, he.sort, he.below, he.value⟩
  | card _ _ =>
    obtain ⟨_, _, _, hr, _⟩ := returns_relation.mp h
    exact (not_returns_unsupported hr).elim
  | transpose _ ih =>
    refine plainRelation_map ih (fun _ => rfl) (fun hx => ⟨sortOf_transpose hx.sort, hx.below, ?_⟩) h
    intro f α E ι I M env hf hM hM'
    rw [Term.eval_transpose, hx.value hf hM hM', tuples_relationValue, ← Tuples.image_transpose]
    rfl
  | closure _ ih =>
    refine plainRelation_map ih (fun _ => rfl) (fun hx => ⟨sortOf_closure hx.sort, hx.below, ?_⟩) h
    intro f α E ι I M env hf hM hM'
    rw [Term.eval_closure, hx.value hf hM hM', tuples_relationValue,
      ← Tuples.image_closure (cellDatum_injective hM.injective)]
    rfl
  | reflexiveClosure _ ih =>
    refine plainRelation_map ih (fun _ => rfl) (fun hx => ⟨?_, ?_, ?_⟩) h
    · exact sortOf_sameSort (by simp) (sortOf_closure hx.sort) (sortOf_ref hv.iden.2)
    · exact fun hf => ⟨hx.below hf, hv.iden.index_lt⟩
    · intro f α E ι I M env hf hM hM'
      rw [Term.eval_union, Term.eval_closure, hx.value hf hM hM', tuples_relationValue,
        ← Tuples.image_closure (cellDatum_injective hM.injective), Term.eval_ref, hM.iden]
      exact (relationValue_union _ _).symm
  | join _ _ hne iha ihb =>
    have h := relation_of_compound h fun hr => by
      obtain ⟨_, _, _, _, _, rfl⟩ := returns_both.mp (returns_joinRelations hr)
      rfl
    obtain ⟨x, y, rfl, rfl, hx, hy⟩ := returns_operands iha ihb (returns_joinRelations h)
    refine ⟨rfl, rfl, sortOf_join hne hx.sort hy.sort, fun hf => ⟨hx.below hf, hy.below hf⟩, ?_⟩
    intro f α E ι I M env hf hM hM'
    rw [Term.eval_join, hx.value hf hM hM', hy.value hf hM hM', tuples_relationValue,
      tuples_relationValue, ← Tuples.image_join (cellDatum_injective hM.injective)]
    rfl
  | union _ _ iha ihb =>
    refine plainRelation_setOperation (by simp) iha ihb ?_ h
    intro f α E ι I M env x y _ hx hy
    rw [← Term.union, Term.eval_union, hx, hy]
    exact (relationValue_union _ _).symm
  | intersection _ _ iha ihb =>
    refine plainRelation_setOperation (by simp) iha ihb ?_ h
    intro f α E ι I M env x y hι hx hy
    rw [← Term.intersection, Term.eval_intersection, hx, hy]
    exact (relationValue_inter hι _ _).symm
  | difference _ _ iha ihb =>
    refine plainRelation_setOperation (by simp) iha ihb ?_ h
    intro f α E ι I M env x y hι hx hy
    rw [← Term.difference, Term.eval_difference, hx, hy]
    exact (relationValue_diff hι _ _).symm
  | product ha _ iha ihb =>
    have h := relation_of_compound h fun hr => by
      obtain ⟨_, _, _, _, _, rfl⟩ := returns_both.mp hr
      rfl
    obtain ⟨x, y, rfl, rfl, hx, hy⟩ := returns_operands iha ihb h
    refine ⟨rfl, rfl, sortOf_product (HasColumns.ne_nil ha) hx.sort hy.sort,
      fun hf => ⟨hx.below hf, hy.below hf⟩, ?_⟩
    intro f α E ι I M env hf hM hM'
    rw [Term.eval_product, hx.value hf hM hM', hy.value hf hM hM', tuples_relationValue,
      tuples_relationValue, ← Tuples.image_product]
    rfl

end TupleLogic.Encoding
