import TupleLogic.Proofs.BoundedAccess
import TupleLogic.Proofs.CountPositions

/-! Free variables of facts. A variable is bound by a quantifier around it, in
the groups after its own and in the body. Every part of an expression is encoded
in the scope that the groups before it make, except for literals, which have no
variables; so a run that succeeds has found each variable in scope, and a
variable that is reported as unbound is free in some fact. -/

namespace TupleLogic.Relational

namespace Expr

/-- The variable occurs where no quantifier around it binds it. The names of a
group are bound in later groups and in the body, not in their own bound. -/
inductive OccursFree (x : String) : Expr → Prop
  | var : OccursFree x (.var x)
  | unary {op : UnaryOp} {e : Expr} : OccursFree x e → OccursFree x (.unary op e)
  | left {op : BinaryOp} {a b : Expr} : OccursFree x a → OccursFree x (.binary op a b)
  | right {op : BinaryOp} {a b : Expr} : OccursFree x b → OccursFree x (.binary op a b)
  | operand {op : ListOp} {es : List Expr} {e : Expr} : e ∈ es → OccursFree x e →
      OccursFree x (.list op es)
  | bound {q : Quantifier} {before after : List (Binding Expr)} {b : Binding Expr} {body : Expr} :
      x ∉ before.flatMap Binding.names → OccursFree x b.bound →
      OccursFree x (.quantified q (before ++ b :: after) body)
  | body {q : Quantifier} {bs : List (Binding Expr)} {body : Expr} :
      x ∉ bs.flatMap Binding.names → OccursFree x body → OccursFree x (.quantified q bs body)

variable {x : String}

theorem mem_freeBelow {bs : List (Binding Expr)} {rest : List String} (h : x ∈ freeBelow bs rest) :
    (∃ before b after, bs = before ++ b :: after ∧ x ∉ before.flatMap Binding.names ∧
      x ∈ b.bound.free) ∨ x ∉ bs.flatMap Binding.names ∧ x ∈ rest := by
  induction bs with
  | nil =>
    rw [freeBelow] at h
    exact .inr ⟨List.not_mem_nil, h⟩
  | cons b bs ih =>
    rw [freeBelow, List.mem_append, List.mem_filter, decide_eq_true_eq] at h
    rcases h with h | ⟨h, hnames⟩
    · exact .inl ⟨[], b, bs, rfl, List.not_mem_nil, h⟩
    · have hcons : ∀ cs : List (Binding Expr), x ∉ cs.flatMap Binding.names →
          x ∉ (b :: cs).flatMap Binding.names := by
        intro cs hcs
        rw [List.flatMap_cons, List.mem_append, not_or]
        exact ⟨hnames, hcs⟩
      rcases ih h with ⟨before, c, after, rfl, hbefore, hc⟩ | ⟨hbs, hrest⟩
      · exact .inl ⟨b :: before, c, after, rfl, hcons before hbefore, hc⟩
      · exact .inr ⟨hcons bs hbs, hrest⟩

mutual
theorem occursFree_of_mem : ∀ {e : Expr}, x ∈ e.free → e.OccursFree x
  | .sig _, h | .field _, h | .builtin _, h | .int _, h => by
    rw [free] at h
    cases h
  | .var y, h => by
    rw [free, List.mem_singleton] at h
    exact h ▸ .var
  | .unary op e, h => by
    rw [free] at h
    exact .unary (occursFree_of_mem h)
  | .binary op a b, h => by
    rw [free, List.mem_append] at h
    rcases h with h | h
    · exact .left (occursFree_of_mem h)
    · exact .right (occursFree_of_mem h)
  | .list op es, h => by
    rw [free] at h
    obtain ⟨e, he, hfree⟩ := occursFree_of_memAll h
    exact .operand he hfree
  | .quantified q bs body, h => by
    rw [free] at h
    rcases mem_freeBelow h with ⟨before, b, after, hbs, hbefore, hb⟩ | ⟨hbs, hbody⟩
    · have hmem : b ∈ bs := hbs ▸ List.mem_append_right before List.mem_cons_self
      have hb : b.bound.OccursFree x := occursFree_of_memBound bs b hmem hb
      exact hbs ▸ .bound hbefore hb
    · exact .body hbs (occursFree_of_mem hbody)

theorem occursFree_of_memAll : ∀ {es : List Expr}, x ∈ freeAll es → ∃ e ∈ es, e.OccursFree x
  | [], h => by
    rw [freeAll] at h
    cases h
  | e :: es, h => by
    rw [freeAll, List.mem_append] at h
    rcases h with h | h
    · exact ⟨e, List.mem_cons_self, occursFree_of_mem h⟩
    · obtain ⟨e', he', hfree⟩ := occursFree_of_memAll h
      exact ⟨e', List.mem_cons_of_mem e he', hfree⟩

theorem occursFree_of_memBound : ∀ (bs : List (Binding Expr)), ∀ b ∈ bs, x ∈ b.bound.free →
    b.bound.OccursFree x
  | [] => List.forall_mem_nil _
  | b :: bs => List.forall_mem_cons.mpr
    ⟨fun h => occursFree_of_mem (e := b.bound) h, occursFree_of_memBound bs⟩
end

/-- A literal has no variables. -/
theorem OccursFree.literal? {e : Expr} (h : e.OccursFree x) : e.literal? = none := by
  induction h with
  | @unary op e _ ih =>
    cases op with
    | toInt | toSigned => exact ih
    | _ => rfl
  | _ => rfl

end Expr

end TupleLogic.Relational

namespace TupleLogic.Encoding

open Relational Encoder

/-! ## What a run visits -/

/-- The expression is encoded in the scope, or what it counts is. -/
def Visited (v : Vocabulary) (e : Expr) (scope : Scope) : Prop :=
  (∃ pos, Succeeds (encode v e scope pos)) ∨ ∃ m, encodeCounted v e scope = some m ∧ Succeeds m

section Visits

variable {v : Vocabulary} {e a b : Expr} {scope : Scope} {pos : Position} {x : String}

theorem Visited.unary {op : Relational.UnaryOp} (h : Visited v (.unary op e) scope) :
    Visited v e scope := by
  rcases h with ⟨_, h⟩ | ⟨m, hm, h⟩
  · rw [encode] at h
    exact .inl ⟨.nested, h.of_unaryExpr.2⟩
  · cases op with
    | toInt | toSigned =>
      rw [encodeCounted] at hm
      exact .inr ⟨m, hm, h⟩
    | card =>
      rw [encodeCounted] at hm
      obtain rfl := Option.some.inj hm
      exact .inl ⟨.nested, h.of_relation⟩
    | _ => simp [encodeCounted] at hm

/-- An operator that counts nothing encodes both sides, literals apart. -/
theorem visited_of_binaryExpr {op : Relational.BinaryOp} (h : Succeeds (binaryExpr v op a b
      (encode v a scope .nested) (encode v b scope .nested)
      [encode v a scope pos, encode v b scope pos])) :
    (a.literal? = none → Visited v a scope) ∧ (b.literal? = none → Visited v b scope) := by
  have hboth {pos' : Position}
      (h : Succeeds (encode v a scope pos') ∧ Succeeds (encode v b scope pos')) :
      (a.literal? = none → Visited v a scope) ∧ (b.literal? = none → Visited v b scope) :=
    ⟨fun _ => .inl ⟨pos', h.1⟩, fun _ => .inl ⟨pos', h.2⟩⟩
  have hnumber : ∀ {e : Expr}, Succeeds (intValue v e (encode v e scope .nested)) →
      e.literal? = none → Visited v e scope := by
    intro e h hnone
    rcases h.of_intValue with ⟨k, hk⟩ | he
    · rw [hnone] at hk
      cases hk
    · exact .inl ⟨.nested, he⟩
  cases op with
  | join => exact hboth h.of_joinRelations
  | union | intersection | difference | product | equals | inside => exact hboth h.of_setOperation
  | notEquals | notInside => exact hboth h.first.of_formula.of_setOperation
  | and =>
    have h := h.of_conjunction
    exact hboth ⟨h _ List.mem_cons_self, h _ (List.mem_cons_of_mem _ List.mem_cons_self)⟩
  | or =>
    have h := h.of_disjunction
    exact hboth ⟨h _ List.mem_cons_self, h _ (List.mem_cons_of_mem _ List.mem_cons_self)⟩
  | implies | iff => exact hboth h.of_connective
  | lt | le | gt | ge => exact ⟨hnumber h.of_both.1, hnumber h.of_both.2⟩

/-- A comparison with a cardinality encodes what is counted; its other side is a
literal. -/
theorem visited_of_cardinality {expr : String} {c : Comparison}
    (h : Succeeds (cardinality expr pos c (encodeCounted v a scope) (encodeCounted v b scope)
      a.literal? b.literal?)) :
    (a.literal? = none → Visited v a scope) ∧ (b.literal? = none → Visited v b scope) := by
  have hliteral : ∀ {e : Expr} {k : Int}, e.literal? = some k → e.literal? = none →
      Visited v e scope := by
    intro e k hk hnone
    rw [hk] at hnone
    cases hnone
  unfold cardinality at h
  split at h
  · rename_i m k hm hk
    exact ⟨fun _ => .inr ⟨m, hm, h.of_countComparison.2.2⟩, hliteral hk⟩
  · split at h
    · rename_i m k hm hk
      exact ⟨hliteral hk, fun _ => .inr ⟨m, hm, h.of_countComparison.2.2⟩⟩
    · exact absurd h not_succeeds_unsupported

theorem Visited.binary {op : Relational.BinaryOp} (h : Visited v (.binary op a b) scope) :
    (a.literal? = none → Visited v a scope) ∧ (b.literal? = none → Visited v b scope) := by
  rcases h with ⟨pos, h⟩ | ⟨m, hm, _⟩
  · rw [encode] at h
    split at h
    · exact visited_of_binaryExpr h
    · dsimp only at h
      split at h
      · exact visited_of_cardinality h
      · exact visited_of_binaryExpr h
  · simp [encodeCounted] at hm

theorem succeeds_of_encodeAll {es : List Expr} (h : ∀ m ∈ encodeAll v es scope pos, Succeeds m)
    (he : e ∈ es) : Succeeds (encode v e scope pos) := by
  induction es with
  | nil => cases he
  | cons e' es ih =>
    rw [encodeAll] at h
    obtain ⟨hhead, htail⟩ := List.forall_mem_cons.mp h
    rcases List.mem_cons.mp he with rfl | he
    · exact hhead
    · exact ih htail he

theorem Visited.operand {op : ListOp} {es : List Expr} (h : Visited v (.list op es) scope)
    (he : e ∈ es) : Visited v e scope := by
  rcases h with ⟨pos, h⟩ | ⟨m, hm, _⟩
  · cases op with
    | and =>
      rw [encode] at h
      exact .inl ⟨pos, succeeds_of_encodeAll h.of_conjunction he⟩
    | or =>
      rw [encode] at h
      exact .inl ⟨.nested, succeeds_of_encodeAll h.of_disjunction he⟩
  · simp [encodeCounted] at hm

/-! ## Scopes of groups -/

/-- The names in scope. -/
def Scope.names (scope : Scope) : List String := scope.map Prod.fst

theorem scope_of_bindNames {set : Term} {names : List String} {xs : Bound} {p q : Progress}
    (h : Returns (bindNames set names scope) p xs q) :
    xs.scope.names = names.reverse ++ scope.names := by
  induction names generalizing scope xs p q with
  | nil =>
    rw [bindNames] at h
    obtain ⟨rfl, _⟩ := returns_pure.mp h
    rfl
  | cons name names ih =>
    simp only [bindNames, returns_bind, returns_pure] at h
    obtain ⟨y, _, _, _, _, _, rest, _, hrest, rfl, _⟩ := h
    rw [ih hrest, List.reverse_cons, List.append_assoc]
    rfl

/-- The scope after the first group has its names besides those from before. -/
theorem names_of_first {set : Term} {group : Binding Expr} {rest : List (Binding Expr)}
    {xs : Bound} {p q : Progress} (h : Returns (bindNames set group.names scope) p xs q)
    {y : String} (hy : y ∈ xs.scope.names ∨ y ∈ rest.flatMap Binding.names) :
    y ∈ scope.names ∨ y ∈ (group :: rest).flatMap Binding.names := by
  rw [List.flatMap_cons, List.mem_append]
  rw [scope_of_bindNames h, List.mem_append, List.mem_reverse] at hy
  rcases hy with (hy | hy) | hy
  · exact .inr (.inl hy)
  · exact .inl hy
  · exact .inr (.inr hy)

/-- The groups before one make the scope of its bound, and those after it do not
matter for that. -/
theorem visited_of_bindings {before after : List (Binding Expr)} {group : Binding Expr}
    (h : Succeeds (encodeBindings v (before ++ group :: after) scope)) :
    ∃ inner : Scope, Visited v group.bound inner ∧
      ∀ y ∈ inner.names, y ∈ scope.names ∨ y ∈ before.flatMap Binding.names := by
  induction before generalizing scope with
  | nil =>
    rw [List.nil_append, encodeBindings] at h
    exact ⟨scope, .inl ⟨.nested, h.first.first.of_relation⟩, fun y hy => .inl hy⟩
  | cons first before ih =>
    rw [List.cons_append, encodeBindings] at h
    obtain ⟨set, hset⟩ := h.next
    obtain ⟨p, _, q, hset⟩ := hset
    obtain ⟨xs, r, hxs, hrest⟩ := returns_bind.mp hset
    obtain ⟨inner, hvisited, hinner⟩ := ih (Succeeds.first ⟨r, _, q, hrest⟩)
    exact ⟨inner, hvisited, fun y hy => names_of_first hxs (hinner y hy)⟩

theorem scope_of_encodeBindings {bs : List (Binding Expr)} {xs : Bound} {p q : Progress}
    (h : Returns (encodeBindings v bs scope) p xs q) :
    ∀ y ∈ xs.scope.names, y ∈ scope.names ∨ y ∈ bs.flatMap Binding.names := by
  induction bs generalizing scope xs p q with
  | nil =>
    rw [encodeBindings] at h
    obtain ⟨rfl, _⟩ := returns_pure.mp h
    exact fun y hy => .inl hy
  | cons group bs ih =>
    simp only [encodeBindings, returns_bind, returns_pure] at h
    obtain ⟨_, _, _, first, _, hfirst, rest, _, hrest, rfl, _⟩ := h
    exact fun y hy => names_of_first hfirst (ih hrest y hy)

/-- Every quantifier encodes its body in the scope that its groups make. -/
theorem Succeeds.of_quantify_body {q : Relational.Quantifier} {bind : Encoder Bound}
    {body : Scope → Encoder Encoded} (h : Succeeds (quantify q bind body)) :
    ∃ p xs r, Returns bind p xs r ∧ Succeeds (body xs.scope) := by
  obtain ⟨p, e, r, h⟩ := h
  obtain ⟨xs, s, hxs, hrest⟩ := returns_bind.mp h
  refine ⟨p, xs, s, hxs, ?_⟩
  cases q with
  | all | no | lone => exact (Succeeds.first ⟨s, e, r, hrest⟩).of_formula
  | some | one => exact Succeeds.first ⟨s, e, r, hrest⟩

theorem Visited.bound {q : Relational.Quantifier} {before after : List (Binding Expr)}
    {group : Binding Expr}
    (h : Visited v (.quantified q (before ++ group :: after) e) scope) :
    ∃ inner : Scope, Visited v group.bound inner ∧
      ∀ y ∈ inner.names, y ∈ scope.names ∨ y ∈ before.flatMap Binding.names := by
  rcases h with ⟨pos, h⟩ | ⟨m, hm, _⟩
  · rw [encode] at h
    exact visited_of_bindings h.of_quantify.1
  · simp [encodeCounted] at hm

theorem Visited.body {q : Relational.Quantifier} {bs : List (Binding Expr)}
    (h : Visited v (.quantified q bs e) scope) :
    ∃ inner : Scope, Visited v e inner ∧
      ∀ y ∈ inner.names, y ∈ scope.names ∨ y ∈ bs.flatMap Binding.names := by
  rcases h with ⟨pos, h⟩ | ⟨m, hm, _⟩
  · rw [encode] at h
    obtain ⟨_, xs, _, hxs, hbody⟩ := h.of_quantify_body
    exact ⟨xs.scope, .inl ⟨.nested, hbody⟩, scope_of_encodeBindings hxs⟩
  · simp [encodeCounted] at hm

/-- What a run visits has its free variables in scope. -/
theorem Visited.names (h : Visited v e scope) (hx : e.OccursFree x) : x ∈ scope.names := by
  -- down to the occurrence; at a quantifier the scope grows by names other than `x`
  induction hx generalizing scope with
  | var =>
    rcases h with ⟨pos, h⟩ | ⟨m, hm, _⟩
    · rw [encode] at h
      split at h
      · rename_i id hid
        obtain ⟨l₁, l₂, rfl, _⟩ := List.lookup_eq_some_iff.mp hid
        exact List.mem_map.mpr ⟨(x, id), List.mem_append_right _ List.mem_cons_self, rfl⟩
      · obtain ⟨_, _, _, h⟩ := h
        exact absurd h not_returns_throw
    · simp [encodeCounted] at hm
  | unary _ ih => exact ih h.unary
  | left ha ih => exact ih (h.binary.1 ha.literal?)
  | right hb ih => exact ih (h.binary.2 hb.literal?)
  | operand he _ ih => exact ih (h.operand he)
  | bound hbefore _ ih =>
    obtain ⟨inner, hvisited, hinner⟩ := h.bound
    exact (hinner x (ih hvisited)).resolve_right hbefore
  | body hbs _ ih =>
    obtain ⟨inner, hvisited, hinner⟩ := h.body
    exact (hinner x (ih hvisited)).resolve_right hbs

end Visits

/-! ## Models -/

/-- Only what a fact leaves free is reported as unbound. -/
theorem expected_of_encode {m : Model} {settings : Settings} {names : NameSupply} {e : EncodeError}
    (h : (m.encode settings names).1 = .error e) :
    Expected (fun x => ∃ fact ∈ m.facts, x ∈ fact.body.free) e := by
  have hstays := (stepwise_afterBuiltins settings.fieldTyping (m := m)).stays
    (p := ⟨builtinScript, if settings.resetNames then .reset else names⟩) intact_builtinScript
    (Nat.le_refl 8)
  refine hstays.error e ?_
  simp only [Model.encode] at h
  rw [run_encodeModel] at h
  generalize (afterBuiltins settings.fieldTyping m).run.run _ = run at h ⊢
  obtain ⟨result, q⟩ := run
  cases result with
  | ok _ => cases h
  | error _ => exact congrArg Except.error (Except.error.inj h)

/-- A model in which a fact has a free variable is never encoded, and a variable
that is reported as unbound is free in a fact. -/
theorem encode_binds_facts (m : Model) (settings : Settings) (names : NameSupply) :
    (∀ fact ∈ m.facts, ∀ x, fact.body.OccursFree x →
      ∃ e, (m.encode settings names).1 = .error e) ∧
    ∀ x, (m.encode settings names).1 = .error (.unbound x) →
      ∃ fact ∈ m.facts, fact.body.OccursFree x := by
  constructor
  · intro fact hfact x hx
    cases hrun : m.encode settings names with
    | mk result names' =>
      cases result with
      | error e => exact ⟨e, rfl⟩
      | ok s =>
        obtain ⟨u, hreturns⟩ := returns_of_encode hrun
        obtain ⟨v, hfacts⟩ := Succeeds.of_encodeModel ⟨_, u, _, hreturns⟩
        have hvisited : Visited v fact.body [] := .inl ⟨.top, (hfacts fact hfact).first.of_formula⟩
        cases hvisited.names hx
  · intro x hx
    cases expected_of_encode hx with
    | unbound hfree =>
      obtain ⟨fact, hfact, hfree⟩ := hfree
      exact ⟨fact, hfact, Expr.occursFree_of_mem hfree⟩

/-- The variable that a failed encoding reports as unbound. -/
def reported? : Except EncodeError Script → Option String
  | .error (.unbound x) => some x
  | _ => none

theorem reported?_eq_some {result : Except EncodeError Script} {x : String} :
    reported? result = some x ↔ result = .error (.unbound x) := by
  unfold reported?
  split
  · simp
  · rename_i hne
    constructor
    · intro h
      cases h
    · exact fun h => absurd h (hne x)

/-- A name that is bound in the first operand and in the second group, but not in
the bound of its own group. -/
def siblingFact : Expr :=
  .binary .and (.quantified .some [⟨["x"], .sig ⟨0⟩⟩] (.binary .inside (.var "x") (.sig ⟨0⟩)))
    (.quantified .one [⟨["y"], .sig ⟨0⟩⟩, ⟨["x"], .binary .union (.var "y") (.var "x")⟩]
      (.binary .equals (.var "x") (.var "y")))

def siblingModel : Model where
  signatures := [⟨"A", .top, [], []⟩]
  facts := [⟨"siblings", siblingFact⟩]

/-- The free variable is the one that is reported. -/
theorem encode_binds_facts_sibling :
    (∃ e, (siblingModel.encode {} {}).1 = .error e) ∧
      (siblingModel.encode {} {}).1 = .error (.unbound "x") ∧
      ∃ fact ∈ siblingModel.facts, fact.body.OccursFree "x" := by
  have hreported : (siblingModel.encode {} {}).1 = .error (.unbound "x") :=
    reported?_eq_some.mp (by decide +kernel)
  have hnames : "x" ∉ List.flatMap Binding.names [⟨["y"], Expr.sig ⟨0⟩⟩] := by decide
  have hfree : siblingFact.OccursFree "x" := .right (.bound hnames (.right .var))
  obtain ⟨hfails, hfound⟩ := encode_binds_facts siblingModel {} {}
  exact ⟨hfails _ (List.mem_singleton_self _) "x" hfree, hreported, hfound "x" hreported⟩

end TupleLogic.Encoding
