import TupleLogic.Proofs.CompiledScripts
import TupleLogic.Proofs.TypedFormulas

/-! Typed facts can be encoded. At the top of a fact, below conjunctions alone,
cardinalities may be compared with numbers: as long as the names of the constants
and sets that enumerate them are free, the encoding returns, and the fact and all
that is asserted on the way have strict sorts. -/

namespace TupleLogic

namespace Encoding

open Relational Encoder
open NameSupply (elementName setName)

/-! ## Cardinalities at the top -/

/-- The sizes of the enumerations that a bound makes. -/
def CountBound.costs : CountBound → List Nat
  | .exactly k | .atMost k | .atLeast k => if 0 < k then [k.toNat] else []
  | .beyond => []

/-- A cardinality that is compared with a literal, by an operator that bounds
it: what is counted, and the bound. -/
def countBound? (op : Relational.BinaryOp) (a b : Expr) : Option (Expr × CountBound) :=
  match op.comparison? with
  | none => none
  | some c =>
    match a.cardinal?, b.literal? with
    | some x, some k => (CountBound.ofComparison? c k).map (x, ·)
    | _, _ =>
      match b.cardinal?, a.literal? with
      | some x, some k => (CountBound.ofComparison? c.swapped k).map (x, ·)
      | _, _ => none

end Encoding

namespace Relational

open Encoding (countBound? CountBound)

mutual
/-- Whether cardinalities occur only where they are compared with a literal,
below conjunctions alone. -/
def Expr.countsAtTop : Expr → Bool
  | .binary op a b =>
    if op = .and then a.countsAtTop && b.countsAtTop
    else match countBound? op a b with
      | some (x, _) => !x.counts
      | none => !(a.counts || b.counts)
  | .list .and es => countAtTop es
  | e => !e.counts

def countAtTop : List Expr → Bool
  | [] => true
  | e :: es => e.countsAtTop && countAtTop es
end

mutual
/-- The sizes of the enumerations that a fact makes, in order. -/
def Expr.enumerations : Expr → List Nat
  | .binary op a b =>
    if op = .and then a.enumerations ++ b.enumerations
    else match countBound? op a b with
      | some (_, bound) => bound.costs
      | none => []
  | .list .and es => enumerationsAll es
  | _ => []

def enumerationsAll : List Expr → List Nat
  | [] => []
  | e :: es => e.enumerations ++ enumerationsAll es
end

theorem Expr.counts_of_literal? {k : Int} : ∀ {e : Expr}, e.literal? = some k → e.counts = false
  | .unary op e, h => by
    cases op with
    | toInt | toSigned => exact Expr.counts_of_literal? (e := e) h
    | _ => cases h
  | .int _, _ => rfl
  | .sig _, h | .field _, h | .builtin _, h | .var _, h | .binary .., h | .list .., h
  | .quantified .., h => by cases h

end Relational

namespace Encoding

open Relational Encoder
open NameSupply (elementName setName)

variable {p : Progress}

/-! ## Enumerations -/

section Enumerations

/-- A declaration under the next name. -/
theorem advances_add {d : Declaration} {names : NameSupply} {elements sets : Nat}
    (hfree : p.script.lookup d.name = none)
    (helements : names.elementCount = p.names.elementCount + elements)
    (hsets : names.setCount = p.names.setCount + sets)
    (hname : (∃ k ≤ names.elementCount, d.name = elementName k) ∨
      ∃ k ≤ names.setCount, d.name = setName k) :
    Advances p ⟨p.script.add d, names⟩ elements sets where
  extension := Script.extends_add hfree
  elementCount := helements
  setCount := hsets
  asserted := ⟨[], by rw [List.append_nil]; rfl, nofun⟩
  names := by
    intro name hnone helement hset
    rw [Option.eq_none_iff_forall_ne_some]
    intro id hid
    rcases (Script.lookup_add hfree).mp hid with hold | ⟨_, rfl⟩
    · rw [hnone] at hold
      cases hold
    · rcases hname with ⟨k, hk, hname⟩ | ⟨k, hk, hname⟩
      · exact helement k hk hname
      · exact hset k hk hname

theorem advances_addAssertion (name : Option String) {t : Term} (ht : t.HasSort p.script .bool) :
    Advances p ⟨p.script.addAssertion name t, p.names⟩ 0 0 :=
  ⟨Script.extends_addAssertion _ _ _, rfl, rfl,
    ⟨[⟨name, t⟩], rfl, List.forall_mem_singleton.mpr (ht.extend (Script.extends_addAssertion _ _ _))⟩,
    fun h _ _ => h⟩

theorem returns_freshElement (sort : TermSort) (h : Room p 1 0) :
    ∃ x q, Returns (freshElement sort) p x q ∧ Advances p q 1 0 ∧
      (Term.ref x).HasSort q.script sort := by
  have hfree := h.element (p.names.elementCount + 1) (by omega) (by omega)
  refine ⟨p.script.nextId, ⟨p.script.add (.constant (elementName (p.names.elementCount + 1)) sort),
    p.names.freshElement.2⟩, ?_, ?_, .ref (p.script.add_getElem? _) rfl⟩
  · simp only [freshElement, drawName, returns_bind, returns_get, returns_modify, returns_pure,
      returns_edit]
    exact ⟨_, _, ⟨_, _, ⟨rfl, rfl⟩, ⟨⟩, _, rfl, rfl, rfl⟩, _,
      Script.declareConstant_eq_add.mpr ⟨hfree, rfl, rfl⟩, rfl⟩
  · exact advances_add hfree rfl rfl (.inl ⟨_, Nat.le_refl _, rfl⟩)

theorem returns_freshSet (sort : TermSort) (h : Room p 0 1) :
    ∃ x q, Returns (freshSet sort) p x q ∧ Advances p q 0 1 ∧
      (Term.ref x).HasSort q.script sort := by
  have hfree := h.set (p.names.setCount + 1) (by omega) (by omega)
  refine ⟨p.script.nextId, ⟨p.script.add (.function (setName (p.names.setCount + 1)) [] sort),
    p.names.freshSet.2⟩, ?_, ?_, .ref (p.script.add_getElem? _) rfl⟩
  · simp only [freshSet, drawName, returns_bind, returns_get, returns_modify, returns_pure,
      returns_edit]
    exact ⟨_, _, ⟨_, _, ⟨rfl, rfl⟩, ⟨⟩, _, rfl, rfl, rfl⟩, _,
      Script.declareFunction_eq_add.mpr ⟨hfree, rfl, rfl⟩, rfl⟩
  · exact advances_add hfree rfl rfl (.inr ⟨_, Nat.le_refl _, rfl⟩)

theorem returns_freshElements (sort : TermSort) {n : Nat} (h : Room p n 0) :
    ∃ ts q, Returns (freshElements sort n) p ts q ∧ Advances p q n 0 ∧ ts.length = n ∧
      ∀ t ∈ ts, t.HasSort q.script sort := by
  induction n generalizing p with
  | zero => exact ⟨[], p, returns_pure.mpr ⟨rfl, rfl⟩, .refl p, rfl, nofun⟩
  | succ n ih =>
    have hroom : Room p (1 + n) (0 + 0) := Nat.add_comm n 1 ▸ h
    obtain ⟨x, q, hx, hpq, hsort⟩ := returns_freshElement sort hroom.before
    obtain ⟨ts, r, hts, hqr, hlength, hsorts⟩ := ih (hroom.after hpq)
    refine ⟨.ref x :: ts, r, ?_, ?_, congrArg (· + 1) hlength,
      List.forall_mem_cons.mpr ⟨hsort.extend hqr.extension, hsorts⟩⟩
    · simp only [freshElements, returns_bind, returns_pure]
      exact ⟨x, q, hx, ts, r, hts, rfl, rfl⟩
    · rw [Nat.add_comm n 1]
      exact hpq.trans hqr

theorem exists_returns_distinguish {ts : List Term} {sort : TermSort} (pairwise : Bool)
    (hts : ∀ t ∈ ts, t.HasSort p.script sort) :
    ∃ r, Returns (distinguish pairwise ts) p ⟨⟩ r ∧ Advances p r 0 0 := by
  unfold distinguish
  split
  · rename_i hmany
    rw [Bool.and_eq_true, decide_eq_true_eq] at hmany
    have hdistinct : Term.distinct ts = .ok (.nary .distinct ts) := by
      rw [Term.distinct, if_neg (by omega)]
    refine ⟨_, ?_, advances_addAssertion none (.distinct (by omega) hts)⟩
    simp only [returns_bind, returns_liftTerm, returns_assertTerm]
    exact ⟨_, p, ⟨hdistinct, rfl⟩, rfl⟩
  · exact ⟨p, returns_pure.mpr ⟨rfl, rfl⟩, .refl p⟩

theorem unionAll_hasSort {s : Script} {ts : List Term} {e : TermSort} (he : e.isSet = false)
    (hne : ts ≠ []) (h : ∀ t ∈ ts, t.HasSort s e) :
    ∃ t, Term.unionAll (ts.map Term.singleton) = .ok t ∧ t.HasSort s (.set e) := by
  have hsets : ∀ t ∈ ts.map Term.singleton, t.HasSort s (.set e) := by
    intro t ht
    obtain ⟨u, hu, rfl⟩ := List.mem_map.mp ht
    exact .singleton (h u hu) he
  cases ts with
  | nil => exact absurd rfl hne
  | cons t ts =>
    rw [List.map_cons, List.forall_mem_cons] at hsets
    exact ⟨_, rfl, Term.hasSort_foldl_union hsets.1 hsets.2⟩

/-- A set of constants, which are declared for it. -/
theorem yieldsFrom_enumerate {n : Nat} {element : TermSort} {pairwise : Bool}
    (helement : element.isSet = false) (hn : 0 < n) (hsmall : n ≤ maxEnumerated)
    (hroom : Room p n 1) :
    YieldsFrom p [n] (enumerate n element (.set element) pairwise) fun s t =>
      t.HasSort s (.set element) := by
  have hroom : Room p (n + 0) (0 + 1) := hroom
  obtain ⟨ts, q, hts, hpq, hlength, hsorts⟩ := returns_freshElements element hroom.before
  obtain ⟨r, hdistinct, hqr⟩ := exists_returns_distinguish pairwise hsorts
  have hroom : Room r 0 1 := (hroom.after hpq).after hqr
  obtain ⟨x, r₁, hx, hr₁, hxsort⟩ := returns_freshSet (.set element) hroom
  have hlast := hqr.trans hr₁
  obtain ⟨union, hunion, husort⟩ := unionAll_hasSort helement
    (List.length_pos_iff.mp (hlength ▸ hn)) fun t ht => (hsorts t ht).extend hlast.extension
  have hassert := advances_addAssertion none (.eq hxsort husort)
  refine ⟨.ref x, _, ?_, hpq.trans (hlast.trans hassert), hxsort.extend hassert.extension⟩
  refine returns_enumerate.mpr ⟨hsmall, ts, q, r, hts, hdistinct, ?_⟩
  exact returns_gather.mpr ⟨x, r₁, union, hx, hunion, rfl, returns_assertTerm.mpr rfl⟩

/-- A relation next to a set of so many elements. -/
theorem yieldsFrom_compared {set : Term} {cs : List ColumnType} {k : Int} {pairwise : Bool}
    {build : Term → Term} (hset : set.HasSort p.script (relationSort cs)) (hk : 0 < k)
    (hsmall : k.toNat ≤ maxEnumerated) (hroom : Room p k.toNat 1)
    (hbuild : ∀ {s : Script} {t : Term}, set.HasSort s (relationSort cs) →
      t.HasSort s (relationSort cs) → (build t).HasSort s .bool) :
    YieldsFrom p [k.toNat] (do return build (← enumerate k.toNat (.tuple (cs.map ColumnType.sort))
      (relationSort cs) pairwise)) fun s t => t.HasSort s .bool := by
  refine (yieldsFrom_enumerate rfl (by omega) hsmall hroom).bind fun t q hpq ht => ?_
  exact yieldsFrom_pure (hbuild (hset.extend hpq.extension) ht)

/-- No relation has fewer than no elements, and the empty one has none. -/
theorem yieldsFrom_unlessPositive {set : Term} {cs : List ColumnType} {k : Int} {m : Encoder Term}
    (hset : set.HasSort p.script (relationSort cs)) (hk : ¬ 0 < k) :
    YieldsFrom p [] (if k < 0 then pure (.bool false)
      else if k = 0 then pure (.equals set (.emptySet (relationSort cs))) else m) fun s t =>
        t.HasSort s .bool := by
  by_cases hneg : k < 0
  · rw [if_pos hneg]
    exact yieldsFrom_pure .bool
  · rw [if_neg hneg, if_pos (by omega)]
    exact yieldsFrom_pure (.eq hset .emptySet)

/-- A bound on the number of elements of a relation. -/
theorem yieldsFrom_encodeBound {set : Term} {cs : List ColumnType} {b : CountBound}
    (hset : set.HasSort p.script (relationSort cs)) (hsmall : ∀ n ∈ b.costs, n ≤ maxEnumerated)
    (hroom : Room p b.costs.sum b.costs.length) :
    YieldsFrom p b.costs (encodeBound set (relationSort cs) (.tuple (cs.map ColumnType.sort)) b)
      fun s t => t.HasSort s .bool := by
  cases b with
  | beyond => exact yieldsFrom_pure .bool
  | exactly k =>
    dsimp only [CountBound.costs, encodeBound] at hsmall hroom ⊢
    by_cases hk : 0 < k
    · rw [if_pos hk] at hsmall hroom ⊢
      rw [if_neg (by omega), if_neg (by omega)]
      exact yieldsFrom_compared hset hk (hsmall _ (by simp)) hroom fun hset ht => .eq hset ht
    · rw [if_neg hk]
      exact yieldsFrom_unlessPositive hset hk
  | atMost k =>
    dsimp only [CountBound.costs, encodeBound] at hsmall hroom ⊢
    by_cases hk : 0 < k
    · rw [if_pos hk] at hsmall hroom ⊢
      rw [if_neg (by omega), if_neg (by omega)]
      exact yieldsFrom_compared hset hk (hsmall _ (by simp)) hroom fun hset ht => .subset hset ht
    · rw [if_neg hk]
      exact yieldsFrom_unlessPositive hset hk
  | atLeast k =>
    dsimp only [CountBound.costs, encodeBound] at hsmall hroom ⊢
    by_cases hk : 0 < k
    · rw [if_pos hk] at hsmall hroom ⊢
      rw [if_neg (by omega)]
      exact yieldsFrom_compared hset hk (hsmall _ (by simp)) hroom fun hset ht => .subset ht hset
    · rw [if_neg hk, if_pos (by omega)]
      exact yieldsFrom_pure .bool

end Enumerations

/-! ## Facts -/

section Facts

variable {v : Vocabulary}

theorem yields_countComparison {expr : String} {c : Comparison} {k : Int} {bound : CountBound}
    {encoding : Encoder Encoded} {cs : List ColumnType}
    (hbound : CountBound.ofComparison? c k = some bound)
    (h : YieldsRelation v [] encoding cs) (hsmall : ∀ n ∈ bound.costs, n ≤ maxEnumerated) :
    YieldsEncoded v [] bound.costs (countComparison expr .top c k (relation encoding)) .bool := by
  intro p hv hs hroom
  obtain ⟨set, hset, hsort⟩ := h.relation hv hs
  unfold countComparison
  rw [hbound]
  dsimp only
  rw [if_pos rfl]
  refine .step hset (.sortOf hsort ?_)
  rw [← List.append_nil bound.costs]
  refine (yieldsFrom_encodeBound hsort hsmall hroom).bind fun t q _ ht => ?_
  exact yieldsFrom_pure (hasSort_encoded ht)

/-- What a cardinality counts has columns and resolves where it does. -/
theorem columns_of_cardinal? {m : Model} {a x : Expr} {cs : List ColumnType} {names : List String}
    (ht : HasColumns m a cs) (ha : a.Resolves m names) (h : a.cardinal? = some x) :
    (∃ ds, HasColumns m x ds) ∧ x.Resolves m names := by
  induction ht with
  | toInt _ ih | toSigned _ ih => exact ih ha.unary h
  | card hx =>
    obtain rfl := Option.some.inj h
    exact ⟨⟨_, hx⟩, ha.unary⟩
  | _ => cases h

theorem countBound?_cases {op : Relational.BinaryOp} {a b x : Expr} {bound : CountBound}
    (h : countBound? op a b = some (x, bound)) : ∃ c k, op.comparison? = some c ∧
      (a.cardinal? = some x ∧ b.literal? = some k ∧ CountBound.ofComparison? c k = some bound ∨
        (a.cardinal? = none ∨ b.literal? = none) ∧ b.cardinal? = some x ∧ a.literal? = some k ∧
          CountBound.ofComparison? c.swapped k = some bound) := by
  unfold countBound? at h
  split at h
  · cases h
  · rename_i c hop
    split at h
    · rename_i y k hy hk
      obtain ⟨_, hcompare, hpair⟩ := Option.map_eq_some_iff.mp h
      cases hpair
      exact ⟨c, k, hop, .inl ⟨hy, hk, hcompare⟩⟩
    · rename_i hleft
      split at h
      · rename_i y k hy hk
        obtain ⟨_, hcompare, hpair⟩ := Option.map_eq_some_iff.mp h
        cases hpair
        refine ⟨c, k, hop, .inr ⟨?_, hy, hk, hcompare⟩⟩
        cases ha : a.cardinal? with
        | none => exact .inl rfl
        | some z =>
          cases hb : b.literal? with
          | none => exact .inr rfl
          | some n => exact (hleft z n ha hb).elim
      · cases h

/-- A cardinality that is bounded is compared with the literal. -/
theorem encode_of_countBound? {op : Relational.BinaryOp} {a b x : Expr} {bound : CountBound}
    {scope : Scope} {pos : Position} (h : countBound? op a b = some (x, bound)) :
    ∃ c k, CountBound.ofComparison? c k = some bound ∧
      encode v (.binary op a b) scope pos = countComparison (v.model.render (.binary op a b)) pos c k
        (relation (encode v x scope .nested)) := by
  obtain ⟨c, k, hop, ⟨hx, hk, hcompare⟩ | ⟨hleft, hx, hk, hcompare⟩⟩ := countBound?_cases h
  · refine ⟨c, k, hcompare, ?_⟩
    rw [encode]
    simp [hop, encodeCounted_eq, hx, hk, cardinality]
  · refine ⟨c.swapped, k, hcompare, ?_⟩
    rw [encode]
    rcases hleft with hleft | hleft <;> simp [hop, encodeCounted_eq, hleft, hx, hk, cardinality]

theorem yields_cardinality {op : Relational.BinaryOp} {a b x : Expr} {bound : CountBound}
    {cs : List ColumnType} (hbound : countBound? op a b = some (x, bound))
    (hx : YieldsRelation v [] (encode v x [] .nested) cs)
    (hsmall : ∀ n ∈ bound.costs, n ≤ maxEnumerated) :
    YieldsEncoded v [] bound.costs (encode v (.binary op a b) [] .top) .bool := by
  obtain ⟨c, k, hcompare, hencode⟩ := encode_of_countBound? hbound
  rw [hencode]
  exact yields_countComparison hcompare hx hsmall

/-- What is counted in a comparison has columns and resolves where its sides do. -/
theorem columns_of_countBound? {m : Model} {op : Relational.BinaryOp} {a b x : Expr}
    {bound : CountBound} {cs : List ColumnType} {names : List String}
    (ha : HasColumns m a cs) (hb : HasColumns m b cs) (h : (Expr.binary op a b).Resolves m names)
    (hbound : countBound? op a b = some (x, bound)) :
    (∃ ds, HasColumns m x ds) ∧ x.Resolves m names := by
  obtain ⟨_, _, _, ⟨hx, _⟩ | ⟨_, hx, _⟩⟩ := countBound?_cases hbound
  · exact columns_of_cardinal? ha h.left hx
  · exact columns_of_cardinal? hb h.right hx

theorem yields_plainFact (hc : v.Covers) {e : Expr} (ht : WellTyped v.model e)
    (hcounts : e.counts = false) (he : e.Resolves v.model []) (hnone : e.enumerations = []) :
    YieldsEncoded v [] e.enumerations (encode v e [] .top) .bool := by
  have hscope : e.Resolves v.model (([] : Scope).map Prod.fst) := he
  rw [hnone]
  exact yields_encode hc ht hcounts hscope .top

/-- A comparison at the top of a fact, whether or not a side of it counts. -/
theorem yields_comparison (hc : v.Covers) {op : Relational.BinaryOp} {a b : Expr}
    {cs : List ColumnType} (hand : op ≠ .and) (ha : HasColumns v.model a cs)
    (hb : HasColumns v.model b cs) (ht : WellTyped v.model (.binary op a b))
    (htop : (Expr.binary op a b).countsAtTop = true) (he : (Expr.binary op a b).Resolves v.model [])
    (hsmall : ∀ n ∈ (Expr.binary op a b).enumerations, n ≤ maxEnumerated) :
    YieldsEncoded v [] (Expr.binary op a b).enumerations (encode v (.binary op a b) [] .top) .bool := by
  rw [Expr.countsAtTop, if_neg hand] at htop
  cases hbound : countBound? op a b with
  | none =>
    rw [hbound] at htop
    refine yields_plainFact hc ht ?_ he (by rw [Expr.enumerations, if_neg hand, hbound])
    rw [Expr.counts]
    simpa using htop
  | some counted =>
    obtain ⟨x, bound⟩ := counted
    have hcosts : (Expr.binary op a b).enumerations = bound.costs := by
      rw [Expr.enumerations, if_neg hand, hbound]
    rw [hbound] at htop
    rw [hcosts] at hsmall ⊢
    obtain ⟨⟨ds, hx⟩, hresolves⟩ := columns_of_countBound? ha hb he hbound
    have hscope : x.Resolves v.model (([] : Scope).map Prod.fst) := hresolves
    exact yields_cardinality hbound
      (yieldsRelation_encode hc hx (by simpa using htop) hscope .nested) hsmall

theorem countsAtTop_of_mem {es : List Expr} (h : countAtTop es = true) :
    ∀ e ∈ es, e.countsAtTop = true := by
  induction es with
  | nil => exact nofun
  | cons e es ih =>
    rw [countAtTop, Bool.and_eq_true] at h
    exact List.forall_mem_cons.mpr ⟨h.1, ih h.2⟩

theorem enumerationsAll_eq (es : List Expr) :
    enumerationsAll es = es.flatMap Expr.enumerations := by
  induction es with
  | nil => rw [enumerationsAll, List.flatMap_nil]
  | cons e es ih => rw [enumerationsAll, ih, List.flatMap_cons]

theorem countBound?_connective {op : Relational.BinaryOp} {a b : Expr}
    (hop : op ∈ [.and, .or, .implies, .iff]) : countBound? op a b = none := by
  have hcomparison : op.comparison? = none := by
    cases op with
    | and | or | implies | iff => rfl
    | _ => simp at hop
  rw [countBound?, hcomparison]

/-- A fact draws the names that its enumerations take. -/
theorem yields_fact (hc : v.Covers) {e : Expr} (ht : WellTyped v.model e)
    (htop : e.countsAtTop = true) (he : e.Resolves v.model [])
    (hsmall : ∀ n ∈ e.enumerations, n ≤ maxEnumerated) :
    YieldsEncoded v [] e.enumerations (encode v e [] .top) .bool := by
  induction ht with
  | multiplicity hop ha =>
    exact yields_plainFact hc (.multiplicity hop ha) (by simpa [Expr.countsAtTop] using htop) he
      (by simp [Expr.enumerations])
  | not ha =>
    exact yields_plainFact hc (.not ha) (by simpa [Expr.countsAtTop] using htop) he
      (by simp [Expr.enumerations])
  | quantified hbs hne hbody =>
    exact yields_plainFact hc (.quantified hbs hne hbody) (by simpa [Expr.countsAtTop] using htop) he
      (by simp [Expr.enumerations])
  | relations hop ha hb =>
    exact yields_comparison hc (by rintro rfl; simp at hop) ha hb (.relations hop ha hb) htop he hsmall
  | numbers hop ha hb =>
    exact yields_comparison hc (by rintro rfl; simp at hop) ha hb (.numbers hop ha hb) htop he hsmall
  | @connective op a b hop ha hb iha ihb =>
    by_cases hand : op = .and
    · subst hand
      -- the operands stay at the top
      have hcosts : (Expr.binary .and a b).enumerations = [a, b].flatMap Expr.enumerations := by
        simp [Expr.enumerations]
      have hencode : encode v (.binary .and a b) [] .top =
          conjunction ([a, b].map fun e => encode v e [] .top) := by
        rw [encode]
        rfl
      rw [Expr.countsAtTop, if_pos rfl, Bool.and_eq_true] at htop
      rw [hcosts] at hsmall ⊢
      rw [hencode]
      refine yields_conjunction (List.forall_mem_cons.mpr ⟨?_, List.forall_mem_singleton.mpr ?_⟩)
      · exact iha htop.1 he.left fun n hn => hsmall n (List.mem_flatMap_of_mem (by simp) hn)
      · exact ihb htop.2 he.right fun n hn => hsmall n (List.mem_flatMap_of_mem (by simp) hn)
    · rw [Expr.countsAtTop, if_neg hand, countBound?_connective hop] at htop
      exact yields_plainFact hc (.connective hop ha hb) (by simpa [Expr.counts] using htop) he
        (by rw [Expr.enumerations, if_neg hand, countBound?_connective hop])
  | @list op es hes ih =>
    cases op with
    | and =>
      rw [Expr.countsAtTop] at htop
      rw [Expr.enumerations, enumerationsAll_eq] at hsmall ⊢
      rw [encode, encodeAll_eq]
      exact yields_conjunction fun e he' => ih e he' (countsAtTop_of_mem htop e he') (he.operand he')
        fun n hn => hsmall n (List.mem_flatMap_of_mem he' hn)
    | or =>
      exact yields_plainFact hc (.list hes) (by simpa [Expr.countsAtTop] using htop) he
        (by simp [Expr.enumerations])

/-- After the declarations of its model a closed and typed fact can be asserted,
if what it counts is small enough to be enumerated and the names for that are
free. All that is asserted has the strict sort of a formula, and what has columns
is encoded, with nothing owed, as a relation between them. -/
theorem assertFact_wellSorted {m : Model} {names : NameSupply} {p₀ p : Progress}
    (hv : Returns (declareVocabulary m) ⟨.empty, names⟩ v p₀)
    (hp : p₀.script.Extends p.script) {name : String} {body : Expr} (ht : WellTyped m body)
    (hbody : body.Resolves m []) (htop : body.countsAtTop = true)
    (hsmall : ∀ n ∈ body.enumerations, n ≤ 65536)
    (hroom : Room p body.enumerations.sum body.enumerations.length) :
    (∃ q new t, Returns (assertFact v name body) p () q ∧ p.script.Extends q.script ∧
      q.script.assertions = p.script.assertions ++ (new ++ [⟨some name, t⟩]) ∧
      ∀ a ∈ new ++ [⟨some name, t⟩], a.formula.HasSort q.script .bool) ∧
    ∀ {e : Expr} {cs : List ColumnType} {scope : Scope} {pos : Position} {q : Progress},
      p₀.script.Extends q.script → HasColumns m e cs → e.counts = false →
      e.Resolves m (scope.map Prod.fst) → BindsAtoms q.script scope →
      ∃ r t, Returns (encode v e scope pos) q r q ∧ r.witnesses = [] ∧
        Returns (promote r.term) q t q ∧
        t.HasSort q.script (.set (.tuple (cs.map ColumnType.sort))) := by
  have hdeclares := declareVocabulary_returns hv
  have hcovers := hdeclares.covers
  have hmodel := hdeclares.model
  subst hmodel
  constructor
  · have hyields := yields_formula (yields_fact hcovers ht htop hbody hsmall)
    obtain ⟨t, q, hreturns, hadvance, hsort⟩ :=
      hyields (hdeclares.declared.extend hp) (bindsAtoms_nil _) hroom
    obtain ⟨new, hnew, hsorts⟩ := hadvance.asserted
    have hassert := Script.extends_addAssertion q.script (some name) t
    refine ⟨⟨q.script.addAssertion (some name) t, q.names⟩, new, t, ?_,
      hadvance.extension.trans hassert, ?_, ?_⟩
    · simp only [assertFact, returns_bind, returns_assertTerm]
      exact ⟨t, q, hreturns, rfl⟩
    · rw [← List.append_assoc, ← hnew]
      rfl
    · intro a ha
      rcases List.mem_append.mp ha with ha | ha
      · exact (hsorts a ha).extend hassert
      · obtain rfl := List.mem_singleton.mp ha
        exact hsort.extend hassert
  · intro e cs scope pos q hq he hcounts hresolves hscope
    exact yieldsRelation_encode hcovers he hcounts hresolves pos (hdeclares.declared.extend hq) hscope

/-- At least two atoms, and one with a number below three. -/
def pairBody : Expr :=
  .list .and [.binary .ge (.unary .card (.sig ⟨0⟩)) (.int 2),
    .quantified .some [⟨["x"], .sig ⟨0⟩⟩]
      (.binary .lt (.binary .join (.var "x") (.field ⟨⟨0⟩, 0⟩)) (.int 3))]

theorem wellTyped_pairBody (label : String) : WellTyped (labelledModel label) pairBody := by
  have hfield : (labelledModel label).field? ⟨⟨0⟩, 0⟩ = some ⟨"a b", [.int], .set⟩ := rfl
  have hnumbers : HasColumns (labelledModel label)
      (.binary .join (.var "x") (.field ⟨⟨0⟩, 0⟩)) ([] ++ [.int]) :=
    .join (.var "x") (.field hfield) (by simp)
  refine .list (List.forall_mem_cons.mpr ⟨?_, List.forall_mem_singleton.mpr ?_⟩)
  · exact .numbers (by simp) (.card (.sig _)) (.int (by decide))
  · exact .quantified (List.forall_mem_singleton.mpr (.sig _)) (by simp)
      (.numbers (by simp) hnumbers (.int (by decide)))

/-- Two atoms are enumerated, next to a formula that owes a witness. -/
theorem assertFact_wellSorted_pair :
    ∃ v p q new t, Returns (declareVocabulary (labelledModel "A")) ⟨.empty, {}⟩ v p ∧
      pairBody.enumerations = [2] ∧ Room p 2 1 ∧ Returns (assertFact v "two" pairBody) p () q ∧
      q.script.assertions = p.script.assertions ++ (new ++ [⟨some "two", t⟩]) ∧
      ∀ a ∈ new ++ [⟨some "two", t⟩], a.formula.HasSort q.script .bool := by
  obtain ⟨v, p, hv⟩ := returns_of_isOk
    (show ((declareVocabulary (labelledModel "A")).run.run ⟨.empty, {}⟩).1.isOk by decide +kernel)
  have hrun : ((declareVocabulary (labelledModel "A")).run.run ⟨.empty, {}⟩).2 = p :=
    congrArg Prod.snd hv
  have hstart : p.names.elementCount = 0 ∧ p.names.setCount = 0 := by
    rw [← hrun]
    decide +kernel
  have hfree : ∀ k < 3, p.script.lookup (elementName k) = none ∧
      p.script.lookup (setName k) = none := by
    rw [← hrun]
    decide +kernel
  have hroom : Room p 2 1 :=
    ⟨fun k _ hk => (hfree k (by omega)).1, fun k _ hk => (hfree k (by omega)).2⟩
  have hcosts : pairBody.enumerations = [2] := by decide +kernel
  obtain ⟨⟨q, new, t, hq, _, hnew, hsorts⟩, _⟩ := assertFact_wellSorted hv (.refl _)
    (wellTyped_pairBody "A") ⟨by decide +kernel, by decide +kernel⟩ (by decide +kernel)
    (by decide +kernel) (hcosts ▸ hroom)
  exact ⟨v, p, q, new, t, hv, hcosts, hroom, hq, hnew, hsorts⟩

end Facts

end Encoding

end TupleLogic
