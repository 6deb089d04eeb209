import TupleLogic.Proofs.Declarations
import TupleLogic.Proofs.RelationEncoding
import TupleLogic.Proofs.StrictSorts

/-! Typed relations can be encoded. Where variables are in scope, signatures
exist and nothing is counted, the encoding of a relation returns, draws no name
and owes nothing, and its term has the strict sort of the relation's columns. -/

namespace TupleLogic

namespace Relational

/-! ## What an expression mentions -/

mutual
/-- The variables that no quantifier around them binds. The names of a group
are bound in the groups after it and in the body. -/
def Expr.free : Expr → List String
  | .sig _ | .field _ | .builtin _ | .int _ => []
  | .var x => [x]
  | .unary _ e => e.free
  | .binary _ a b => a.free ++ b.free
  | .list _ es => freeAll es
  | .quantified _ bs body => freeBelow bs body.free

def freeAll : List Expr → List String
  | [] => []
  | e :: es => e.free ++ freeAll es

/-- What is free in the groups, where `rest` is free below them. -/
def freeBelow : List (Binding Expr) → List String → List String
  | [], rest => rest
  | b :: bs, rest => b.bound.free ++ (freeBelow bs rest).filter (· ∉ b.names)
end

mutual
def Expr.signatures : Expr → List SigId
  | .field _ | .builtin _ | .var _ | .int _ => []
  | .sig id => [id]
  | .unary _ e => e.signatures
  | .binary _ a b => a.signatures ++ b.signatures
  | .list _ es => signaturesAll es
  | .quantified _ bs body => signaturesBound bs ++ body.signatures

def signaturesAll : List Expr → List SigId
  | [] => []
  | e :: es => e.signatures ++ signaturesAll es

def signaturesBound : List (Binding Expr) → List SigId
  | [] => []
  | b :: bs => b.bound.signatures ++ signaturesBound bs
end

/-- The free variables are among `names`, and the signatures are the model's. -/
structure Expr.Resolves (m : Model) (names : List String) (e : Expr) : Prop where
  free : ∀ x ∈ e.free, x ∈ names
  signatures : ∀ id ∈ e.signatures, (m.signature? id).isSome

section Resolves

variable {m : Model} {names : List String} {e a b : Expr}

theorem Expr.Resolves.unary {op : UnaryOp} (h : (Expr.unary op e).Resolves m names) :
    e.Resolves m names :=
  ⟨fun x hx => h.free x (by rwa [Expr.free]), fun id hid => h.signatures id (by rwa [Expr.signatures])⟩

theorem Expr.Resolves.left {op : BinaryOp} (h : (Expr.binary op a b).Resolves m names) :
    a.Resolves m names :=
  ⟨fun x hx => h.free x (by rw [Expr.free]; exact List.mem_append_left _ hx),
    fun id hid => h.signatures id (by rw [Expr.signatures]; exact List.mem_append_left _ hid)⟩

theorem Expr.Resolves.right {op : BinaryOp} (h : (Expr.binary op a b).Resolves m names) :
    b.Resolves m names :=
  ⟨fun x hx => h.free x (by rw [Expr.free]; exact List.mem_append_right _ hx),
    fun id hid => h.signatures id (by rw [Expr.signatures]; exact List.mem_append_right _ hid)⟩

theorem Expr.Resolves.operand {op : ListOp} {es : List Expr} (h : (Expr.list op es).Resolves m names)
    (he : e ∈ es) : e.Resolves m names := by
  have hall : ∀ es : List Expr, e ∈ es → e.free ⊆ freeAll es ∧ e.signatures ⊆ signaturesAll es := by
    intro es he
    induction es with
    | nil => cases he
    | cons a es ih =>
      rw [freeAll, signaturesAll]
      rcases List.mem_cons.mp he with rfl | he
      · exact ⟨List.subset_append_left _ _, List.subset_append_left _ _⟩
      · obtain ⟨hfree, hsignatures⟩ := ih he
        exact ⟨List.subset_append_of_subset_right _ hfree,
          List.subset_append_of_subset_right _ hsignatures⟩
  exact ⟨fun x hx => h.free x (by rw [Expr.free]; exact (hall es he).1 hx),
    fun id hid => h.signatures id (by rw [Expr.signatures]; exact (hall es he).2 hid)⟩

end Resolves

end Relational

namespace Encoding

open Relational Encoder

/-! ## Where relations are encoded -/

/-- Every signature and field of the model has its relation. -/
structure Vocabulary.Covers (v : Vocabulary) : Prop where
  sig : ∀ {id : SigId} {g : Signature}, v.model.signature? id = some g →
    ∃ d, v.signatures[id.index]? = some d
  field : ∀ {id : FieldId} {f : Field}, v.model.field? id = some f → ∃ d, v.field? id = some d

theorem DeclaresVocabulary.covers {m : Model} {v : Vocabulary} {p : Progress}
    (h : DeclaresVocabulary m v p) : v.Covers where
  sig hg := by
    obtain ⟨d, hd, _⟩ := h.signature_relation (h.model ▸ hg)
    exact ⟨d, hd⟩
  field {id f} hf := by
    rw [h.model] at hf
    obtain ⟨g, hg, _⟩ := Option.bind_eq_some_iff.mp hf
    obtain ⟨d, hd, _⟩ := h.field_relation hg hf
    exact ⟨d, hd⟩

/-- The names in scope stand for variables that range over atoms. -/
def BindsAtoms (s : Script) (scope : Scope) : Prop :=
  ∀ b ∈ scope, ∃ name, s.arena[b.2.index]? = some (.variable name .atom)

theorem bindsAtoms_nil (s : Script) : BindsAtoms s [] := fun _ h => nomatch h

theorem BindsAtoms.extend {s t : Script} {scope : Scope} (h : BindsAtoms s scope)
    (hst : s.Extends t) : BindsAtoms t scope := by
  intro b hb
  obtain ⟨name, hd⟩ := h b hb
  exact ⟨name, hst.decl hd⟩

theorem exists_lookup {scope : Scope} {x : String} (h : x ∈ scope.map Prod.fst) :
    ∃ id, scope.lookup x = some id ∧ (x, id) ∈ scope := by
  induction scope with
  | nil => cases h
  | cons b scope ih =>
    by_cases hx : x = b.1
    · exact ⟨b.2, by rw [hx, List.lookup_cons_self], by simp [hx]⟩
    · rw [List.map_cons, List.mem_cons] at h
      obtain ⟨id, hid, hmem⟩ := ih (h.resolve_left hx)
      refine ⟨id, ?_, List.mem_cons_of_mem _ hmem⟩
      rw [List.lookup_cons, beq_eq_false_iff_ne.mpr hx]
      exact hid

/-! ## Strict sorts of relations -/

section Sorts

variable {s : Script} {a b : Term} {cs ds : List ColumnType} {c d : ColumnType}

theorem hasSort_function {name : String} {sort : TermSort} {id : DeclId}
    (h : HasFunction s name [] sort id) : (Term.ref id).HasSort s sort :=
  .ref h.2 rfl

theorem hasSort_variable {name : String} {sort : TermSort} {id : DeclId}
    (h : s.arena[id.index]? = some (.variable name sort)) : (Term.ref id).HasSort s sort :=
  .ref h rfl

theorem hasSort_join (hne : cs ++ ds ≠ []) (ha : a.HasSort s (relationSort (cs ++ [c])))
    (hb : b.HasSort s (relationSort (c :: ds))) :
    (Term.join a b).HasSort s (relationSort (cs ++ ds)) := by
  rw [relationSort, List.map_append] at ha ⊢
  exact .join ha hb (by simpa using hne)

theorem hasSort_product (hcs : cs ≠ []) (ha : a.HasSort s (relationSort cs))
    (hb : b.HasSort s (relationSort ds)) :
    (Term.product a b).HasSort s (relationSort (cs ++ ds)) := by
  rw [relationSort, List.map_append]
  exact .product ha hb (by simp [hcs])

theorem hasSort_transpose (ha : a.HasSort s (relationSort [c, d])) :
    (Term.transpose a).HasSort s (relationSort [d, c]) :=
  .transpose ha (by simp)

end Sorts

/-! ## Encodings of relations -/

variable {v : Vocabulary} {scope : Scope} {p : Progress}

/-- The encoding returns, leaves the progress as it is and owes nothing, and
what it gives is promoted to a relation with the columns `cs`. -/
def YieldsRelation (v : Vocabulary) (scope : Scope) (m : Encoder Encoded) (cs : List ColumnType) :
    Prop :=
  ∀ ⦃p⦄, Declared v p.script → BindsAtoms p.script scope → ∃ r t, Returns m p r p ∧
    r.witnesses = [] ∧ Returns (promote r.term) p t p ∧ t.HasSort p.script (relationSort cs)

theorem YieldsRelation.relation {m : Encoder Encoded} {cs : List ColumnType}
    (h : YieldsRelation v scope m cs) (hv : Declared v p.script) (hs : BindsAtoms p.script scope) :
    ∃ t, Returns (relation m) p ⟨t, []⟩ p ∧ t.HasSort p.script (relationSort cs) := by
  obtain ⟨r, t, hr, hw, ht, hsort⟩ := h hv hs
  exact ⟨t, returns_relation.mpr ⟨r, p, t, hr, ht, by rw [hw]⟩, hsort⟩

section Constructs

variable {lhs rhs encoding : Encoder Encoded} {cs ds : List ColumnType}

theorem returns_promote_ref {id : DeclId} {d : Declaration}
    (hd : p.script.arena[id.index]? = some d) :
    ((∃ e, d.sort = .set e) → Returns (promote (.ref id)) p (.ref id) p) ∧
      (d.sort = .atom → Returns (promote (.ref id)) p (.singleton (.nary .tuple [.ref id])) p) := by
  have hdecl : p.script.decl id = .ok d := by rw [Script.decl, hd]
  simp only [promote, Term.decl?, returns_bind, returns_get, returns_liftTerm]
  constructor
  · rintro ⟨e, he⟩
    refine ⟨p, p, ⟨rfl, rfl⟩, d, p, ⟨hdecl, rfl⟩, ?_⟩
    rw [he]
    exact returns_pure.mpr ⟨rfl, rfl⟩
  · intro ha
    refine ⟨p, p, ⟨rfl, rfl⟩, d, p, ⟨hdecl, rfl⟩, ?_⟩
    rw [ha]
    exact returns_bind.mpr ⟨_, p, returns_liftTerm.mpr ⟨rfl, rfl⟩, returns_pure.mpr ⟨rfl, rfl⟩⟩

/-- A declared relation. -/
theorem yieldsRelation_function {d : DeclId}
    (hd : ∀ ⦃s⦄, Declared v s → ∃ name, HasFunction s name [] (relationSort cs) d) :
    YieldsRelation v scope (return ⟨.ref d, []⟩) cs := by
  intro p hv _
  obtain ⟨name, hd⟩ := hd hv
  exact ⟨_, _, returns_pure.mpr ⟨rfl, rfl⟩, rfl, (returns_promote_ref hd.2).1 ⟨_, rfl⟩,
    hasSort_function hd⟩

/-- A term that is no reference stays as it is where a relation is meant. -/
theorem yieldsRelation_compound (h : ∀ ⦃p⦄, Declared v p.script → BindsAtoms p.script scope →
      ∃ t, Returns encoding p ⟨t, []⟩ p ∧ t.decl? = none ∧ t.HasSort p.script (relationSort cs)) :
    YieldsRelation v scope encoding cs := by
  intro p hv hs
  obtain ⟨t, ht, hdecl, hsort⟩ := h hv hs
  exact ⟨_, t, ht, rfl, (returns_promote_of_decl?_none hdecl).mpr ⟨rfl, rfl⟩, hsort⟩

theorem yieldsRelation_var {x : String} (hx : x ∈ scope.map Prod.fst) {pos : Position} :
    YieldsRelation v scope (encode v (.var x) scope pos) [.atom] := by
  intro p _ hs
  obtain ⟨id, hid, hmem⟩ := exists_lookup hx
  obtain ⟨name, hd⟩ := hs (x, id) hmem
  refine ⟨⟨.ref id, []⟩, _, ?_, rfl, (returns_promote_ref hd).2 rfl, ?_⟩
  · rw [encode, hid]
    exact returns_pure.mpr ⟨rfl, rfl⟩
  · exact .singleton (Term.hasSort_tuple (by simp) (.cons (hasSort_variable hd) .nil)) rfl

theorem yieldsRelation_int (n : Int) {pos : Position} :
    YieldsRelation v scope (encode v (.int n) scope pos) [.int] := by
  refine yieldsRelation_compound fun p _ _ => ⟨.singleton (.nary .tuple [.int n]), ?_, rfl, ?_⟩
  · rw [encode]
    exact returns_bind.mpr ⟨_, p, returns_liftTerm.mpr ⟨rfl, rfl⟩, returns_pure.mpr ⟨rfl, rfl⟩⟩
  · exact .singleton (Term.hasSort_tuple (by simp) (.cons .int .nil)) rfl

/-- The two operands of an operator. -/
theorem returns_setOperation {build : Term → Term → Term} (hl : YieldsRelation v scope lhs cs)
    (hr : YieldsRelation v scope rhs ds) (hv : Declared v p.script) (hs : BindsAtoms p.script scope) :
    ∃ a b, Returns (setOperation lhs rhs build) p ⟨build a b, []⟩ p ∧
      a.HasSort p.script (relationSort cs) ∧ b.HasSort p.script (relationSort ds) := by
  obtain ⟨a, ha, hasort⟩ := hl.relation hv hs
  obtain ⟨b, hb, hbsort⟩ := hr.relation hv hs
  exact ⟨a, b, returns_both.mpr ⟨_, p, _, ha, hb, rfl⟩, hasort, hbsort⟩

theorem yieldsRelation_setOperation {es : List ColumnType} {op : BinaryOp}
    (hl : YieldsRelation v scope lhs cs) (hr : YieldsRelation v scope rhs ds)
    (hsort : ∀ {s : Script} {a b : Term}, a.HasSort s (relationSort cs) →
      b.HasSort s (relationSort ds) → (Term.binary op a b).HasSort s (relationSort es)) :
    YieldsRelation v scope (setOperation lhs rhs (.binary op)) es := by
  refine yieldsRelation_compound fun p hv hs => ?_
  obtain ⟨a, b, hab, ha, hb⟩ := returns_setOperation hl hr hv hs
  exact ⟨_, hab, rfl, hsort ha hb⟩

theorem arity_relationSort (cs : List ColumnType) : (relationSort cs).arity = cs.length := by
  simp [relationSort, TermSort.arity, TermSort.columns?]

theorem yieldsRelation_join {c : ColumnType} {expr : String} (hne : cs ++ ds ≠ [])
    (hl : YieldsRelation v scope lhs (cs ++ [c])) (hr : YieldsRelation v scope rhs (c :: ds)) :
    YieldsRelation v scope (joinRelations expr lhs rhs) (cs ++ ds) := by
  refine yieldsRelation_compound fun p hv hs => ?_
  obtain ⟨a, ha, hasort⟩ := hl.relation hv hs
  obtain ⟨b, hb, hbsort⟩ := hr.relation hv hs
  refine ⟨.join a b, ?_, rfl, hasSort_join hne hasort hbsort⟩
  simp only [joinRelations, returns_bind, returns_sortOf]
  refine ⟨_, p, ha, _, p, hb, _, p, ⟨hasort.sortOf, rfl⟩, ?_⟩
  have hreturns : Returns (pure ⟨.join a b, [] ++ []⟩) p (⟨.join a b, []⟩ : Encoded) p :=
    returns_pure.mpr ⟨rfl, rfl⟩
  split
  · rename_i hone
    -- the left operand has one column, so the right one has more
    have hcs : cs = [] := by simpa [arity_relationSort] using hone
    have hds : ¬ (relationSort (c :: ds)).arity = 1 := by
      rw [arity_relationSort]
      simpa [hcs] using hne
    rw [returns_bind]
    refine ⟨_, p, returns_sortOf.mpr ⟨hbsort.sortOf, rfl⟩, ?_⟩
    rw [if_neg hds]
    exact hreturns
  · exact hreturns

/-- An operator on one relation of two columns. -/
theorem yieldsRelation_map {c d : ColumnType} {expr : String} {f : Term → Term}
    (h : YieldsRelation v scope encoding [c, d]) (hdecl : ∀ a, (f a).decl? = none)
    (hsort : ∀ {s : Script} {a : Term}, Declared v s → a.HasSort s (relationSort [c, d]) →
      (f a).HasSort s (relationSort ds)) :
    YieldsRelation v scope (do return (← binaryRelation expr encoding).map f) ds := by
  refine yieldsRelation_compound fun p hv hs => ?_
  obtain ⟨a, ha, hasort⟩ := h.relation hv hs
  refine ⟨f a, ?_, hdecl a, hsort hv hasort⟩
  simp only [binaryRelation, returns_bind, returns_sortOf, returns_pure]
  refine ⟨⟨a, []⟩, p, ⟨_, p, ha, _, p, ⟨hasort.sortOf, rfl⟩, ?_⟩, rfl, rfl⟩
  have harity : (relationSort [c, d]).arity = 2 := arity_relationSort _
  rw [if_pos harity]
  exact returns_pure.mpr ⟨rfl, rfl⟩

end Constructs

theorem yieldsRelation_encode (hc : v.Covers) {e : Expr} {cs : List ColumnType}
    (ht : HasColumns v.model e cs) (hcounts : e.counts = false)
    (he : e.Resolves v.model (scope.map Prod.fst)) (pos : Position) :
    YieldsRelation v scope (encode v e scope pos) cs := by
  induction ht generalizing pos with
  | sig id =>
    have hsome := he.signatures id (by simp [Expr.signatures])
    obtain ⟨g, hg⟩ := Option.isSome_iff_exists.mp hsome
    obtain ⟨d, hd⟩ := hc.sig hg
    rw [encode, Vocabulary.sigRelation, hd, pure_bind]
    refine yieldsRelation_function fun s hv => ?_
    obtain ⟨g, _, hd⟩ := hv.sig hd
    exact ⟨_, hd⟩
  | field hf =>
    obtain ⟨d, hd⟩ := hc.field hf
    have hfield := hd
    rw [Vocabulary.field?] at hd
    rw [encode, Vocabulary.fieldRelation, hd, pure_bind]
    refine yieldsRelation_function fun s hv => ?_
    obtain ⟨g, f, _, hf', hd⟩ := hv.field hfield
    rw [hf, Option.some.injEq] at hf'
    exact ⟨_, hf' ▸ hd⟩
  | univ => exact yieldsRelation_function fun s hv => ⟨_, hv.univ⟩
  | none => exact yieldsRelation_function fun s hv => ⟨_, hv.none⟩
  | iden => exact yieldsRelation_function fun s hv => ⟨_, hv.iden⟩
  | var x => exact yieldsRelation_var (he.free x (by simp [Expr.free]))
  | int _ => exact yieldsRelation_int _
  | toInt _ ih | toSigned _ ih =>
    rw [encode]
    exact ih (by simpa [Expr.counts] using hcounts) he.unary .nested
  | card => simp [Expr.counts] at hcounts
  | transpose _ ih =>
    rw [encode]
    exact yieldsRelation_map (ih (by simpa [Expr.counts] using hcounts) he.unary .nested)
      (fun _ => rfl) fun _ ha => hasSort_transpose ha
  | closure _ ih =>
    rw [encode]
    exact yieldsRelation_map (ih (by simpa [Expr.counts] using hcounts) he.unary .nested)
      (fun _ => rfl) fun _ ha => .closure ha
  | reflexiveClosure _ ih =>
    rw [encode]
    exact yieldsRelation_map (ih (by simpa [Expr.counts] using hcounts) he.unary .nested)
      (fun _ => rfl) fun hv ha => .setOperation (by simp) (.closure ha) (hasSort_function hv.iden)
  | join _ _ hne iha ihb =>
    simp only [Expr.counts, Bool.or_eq_false_iff] at hcounts
    rw [encode]
    exact yieldsRelation_join hne (iha hcounts.1 he.left .nested) (ihb hcounts.2 he.right .nested)
  | union _ _ iha ihb | intersection _ _ iha ihb | difference _ _ iha ihb =>
    simp only [Expr.counts, Bool.or_eq_false_iff] at hcounts
    rw [encode]
    exact yieldsRelation_setOperation (iha hcounts.1 he.left .nested)
      (ihb hcounts.2 he.right .nested) fun ha hb => .setOperation (by simp) ha hb
  | product ha _ iha ihb =>
    simp only [Expr.counts, Bool.or_eq_false_iff] at hcounts
    rw [encode]
    exact yieldsRelation_setOperation (iha hcounts.1 he.left .nested)
      (ihb hcounts.2 he.right .nested) fun hl hr => hasSort_product (HasColumns.ne_nil ha) hl hr

end Encoding

end TupleLogic
