import TupleLogic.Proofs.TypedFacts

/-! Where a model that can be encoded counts. The constants of an enumeration
are declared for the whole script, so what is counted below a negation, a
disjunction or a quantifier must not be enumerated. Positions are paths: every
path from a fact to a cardinality comes down conjunctions to a comparison with
a literal, and from there down casts. A run reaches all other parts of a fact
in a nested position, where counting fails. -/

namespace TupleLogic.Relational

open Encoding (countBound? countBound?_cases countsAtTop_of_mem CountBound)

namespace Expr

/-- The parts of an expression from left to right, bounds before the body. -/
def parts : Expr → List Expr
  | .sig _ | .field _ | .builtin _ | .var _ | .int _ => []
  | .unary _ e => [e]
  | .binary _ a b => [a, b]
  | .list _ es => es
  | .quantified _ bs body => bs.map Binding.bound ++ [body]

/-- A path from an expression down to one that occurs in it. It says at each
node which part comes next, and `through` holds of every node that it leaves. -/
inductive Leads (through : Expr → Bool) : Expr → List Nat → Expr → Prop
  | here (e : Expr) : Leads through e [] e
  | down {e part e' : Expr} {i : Nat} {path : List Nat} : through e = true →
      e.parts[i]? = some part → Leads through part path e' → Leads through e (i :: path) e'

def isConjunction : Expr → Bool
  | .binary .and _ _ | .list .and _ => true
  | _ => false

def isCast : Expr → Bool
  | .unary .toInt _ | .unary .toSigned _ => true
  | _ => false

/-- The cardinality of `x` at the end of `path` is, below casts, one side of a
comparison with a literal, and only conjunctions stand above the comparison. -/
def ComparedAtTop (e : Expr) (path : List Nat) (x : Expr) : Prop :=
  ∃ above side below op a b, path = above ++ side :: below ∧
    e.Leads isConjunction above (.binary op a b) ∧ op ∈ [.equals, .lt, .le, .gt, .ge] ∧
    (side = 0 ∧ a.Leads isCast below (.unary .card x) ∧ (∃ k, b.literal? = some k) ∨
      side = 1 ∧ b.Leads isCast below (.unary .card x) ∧ ∃ k, a.literal? = some k)

/-! ## Paths to cardinalities -/

theorem countsAny_eq (es : List Expr) : countsAny es = es.any counts := by
  induction es with
  | nil => rfl
  | cons e es ih => rw [countsAny, ih, List.any_cons]

theorem countsBound_eq (bs : List (Binding Expr)) :
    countsBound bs = bs.any fun b => b.bound.counts := by
  induction bs with
  | nil => rfl
  | cons b bs ih => rw [countsBound, ih, List.any_cons]

theorem counts_of_part {e part : Expr} (h : part ∈ e.parts) (hcounts : part.counts = true) :
    e.counts = true := by
  cases e with
  | sig | field | builtin | var | int => cases h
  | unary op e =>
    obtain rfl := List.mem_singleton.mp h
    simp [counts, hcounts]
  | binary op a b =>
    simp only [parts, List.mem_cons, List.not_mem_nil, or_false] at h
    rcases h with rfl | rfl <;> simp [counts, hcounts]
  | list op es =>
    rw [counts, countsAny_eq]
    exact List.any_eq_true.mpr ⟨part, h, hcounts⟩
  | quantified q bs body =>
    simp only [parts, List.mem_append, List.mem_map, List.mem_singleton] at h
    rw [counts, countsBound_eq, Bool.or_eq_true, List.any_eq_true]
    rcases h with ⟨b, hb, rfl⟩ | rfl
    · exact .inl ⟨b, hb, hcounts⟩
    · exact .inr hcounts

/-- No path leads to a cardinality where nothing is counted. -/
theorem not_leads {through : Expr → Bool} {e x : Expr} {path : List Nat} (he : e.counts = false) :
    ¬ e.Leads through path (.unary .card x) := by
  intro h
  generalize hend : Expr.unary .card x = last at h
  induction h with
  | here e =>
    subst hend
    cases he
  | down _ hpart _ ih =>
    refine ih (Bool.eq_false_iff.mpr fun hcounts => ?_) hend
    rw [counts_of_part (List.mem_of_getElem? hpart) hcounts] at he
    cases he

/-- Where a cardinality below casts counts nothing else, it is all that a path
can lead to. -/
theorem Leads.of_cardinal? {through : Expr → Bool} {a x y : Expr} {path : List Nat}
    (h : a.Leads through path (.unary .card x)) (ha : a.cardinal? = some y)
    (hy : y.counts = false) : a.Leads isCast path (.unary .card x) := by
  generalize hend : Expr.unary .card x = last at h ⊢
  induction h with
  | here e => exact .here e
  | @down e part _ i path _ hpart hrest ih =>
    cases e with
    | unary op e =>
      obtain rfl : part = e := List.mem_singleton.mp (List.mem_of_getElem? hpart)
      cases op with
      | toInt | toSigned => exact .down rfl hpart (ih ha hend)
      | card =>
        -- the path would go on into the relation that is counted
        obtain rfl : part = y := Option.some.inj ha
        subst hend
        exact absurd hrest (not_leads hy)
      | _ => cases ha
    | _ => cases ha

/-- Operators that bound a cardinality by a literal. -/
theorem compares_of_countBound? {op : BinaryOp} {a b y : Expr} {bound : CountBound}
    (h : countBound? op a b = some (y, bound)) : op ∈ [.equals, .lt, .le, .gt, .ge] := by
  obtain ⟨c, k, hop, hsides⟩ := countBound?_cases h
  cases op with
  | equals | lt | le | gt | ge => simp
  | notEquals =>
    cases hop
    rcases hsides with ⟨_, _, hbound⟩ | ⟨_, _, _, hbound⟩ <;> cases hbound
  | _ => cases hop

theorem comparedAtTop_of_countBound? {op : BinaryOp} {a b x y : Expr} {bound : CountBound}
    {through : Expr → Bool} {path : List Nat} (hbound : countBound? op a b = some (y, bound))
    (hy : y.counts = false) (h : (Expr.binary op a b).Leads through path (.unary .card x)) :
    (Expr.binary op a b).ComparedAtTop path x := by
  have hop := compares_of_countBound? hbound
  obtain ⟨_, k, _, hsides⟩ := countBound?_cases hbound
  cases h with
  | @down _ part _ i path _ hpart hrest =>
    rcases i with _ | _ | i
    · obtain rfl : a = part := Option.some.inj hpart
      rcases hsides with ⟨ha, hb, _⟩ | ⟨_, _, ha, _⟩
      · exact ⟨[], 0, path, op, a, b, rfl, .here _, hop, .inl ⟨rfl, hrest.of_cardinal? ha hy, k, hb⟩⟩
      · exact absurd hrest (not_leads (counts_of_literal? ha))
    · obtain rfl : b = part := Option.some.inj hpart
      rcases hsides with ⟨_, hb, _⟩ | ⟨_, hb, ha, _⟩
      · exact absurd hrest (not_leads (counts_of_literal? hb))
      · exact ⟨[], 1, path, op, a, b, rfl, .here _, hop, .inr ⟨rfl, hrest.of_cardinal? hb hy, k, ha⟩⟩
    · cases hpart

theorem ComparedAtTop.below {e part x : Expr} {i : Nat} {path : List Nat}
    (h : part.ComparedAtTop path x) (he : e.isConjunction = true)
    (hpart : e.parts[i]? = some part) : e.ComparedAtTop (i :: path) x := by
  obtain ⟨above, side, below, op, a, b, rfl, habove, hside⟩ := h
  exact ⟨i :: above, side, below, op, a, b, rfl, .down he hpart habove, hside⟩

/-- The parts of a conjunction count where it counts. -/
theorem countsAtTop_of_part {e part : Expr} (htop : e.countsAtTop = true)
    (he : e.isConjunction = true) (hpart : part ∈ e.parts) : part.countsAtTop = true := by
  cases e with
  | binary op a b =>
    cases op with
    | and =>
      simp only [parts, List.mem_cons, List.not_mem_nil, or_false] at hpart
      rw [countsAtTop, if_pos rfl, Bool.and_eq_true] at htop
      rcases hpart with rfl | rfl
      · exact htop.1
      · exact htop.2
    | _ => cases he
  | list op es =>
    cases op with
    | and =>
      rw [countsAtTop] at htop
      exact countsAtTop_of_mem htop part hpart
    | or => cases he
  | _ => cases he

/-- Elsewhere an expression counts nothing, unless it bounds a cardinality. -/
theorem counts_of_countsAtTop {e : Expr} (htop : e.countsAtTop = true)
    (he : e.isConjunction = false) : e.counts = false ∨
      ∃ op a b y bound, e = .binary op a b ∧ countBound? op a b = some (y, bound) ∧
        y.counts = false := by
  cases e with
  | binary op a b =>
    have hand : op ≠ .and := by
      rintro rfl
      cases he
    rw [countsAtTop, if_neg hand] at htop
    cases hbound : countBound? op a b with
    | none =>
      rw [hbound] at htop
      exact .inl (by simpa [counts] using htop)
    | some found =>
      obtain ⟨y, bound⟩ := found
      rw [hbound] at htop
      exact .inr ⟨op, a, b, y, bound, rfl, hbound, by simpa using htop⟩
  | list op es =>
    cases op with
    | and => cases he
    | or => exact .inl (by simpa [countsAtTop] using htop)
  | _ => exact .inl (by simpa [countsAtTop] using htop)

theorem comparedAtTop_of_countsAtTop {through : Expr → Bool} {e x : Expr} {path : List Nat}
    (htop : e.countsAtTop = true) (h : e.Leads through path (.unary .card x)) :
    e.ComparedAtTop path x := by
  -- along the path; it leaves the conjunctions at the comparison
  generalize hend : Expr.unary .card x = last at h
  induction h with
  | here e =>
    subst hend
    cases htop
  | @down e part _ i path hthrough hpart hrest ih =>
    by_cases he : e.isConjunction = true
    · exact (ih (countsAtTop_of_part htop he (List.mem_of_getElem? hpart)) hend).below he hpart
    · subst hend
      have hdown : e.Leads through (i :: path) (.unary .card x) := .down hthrough hpart hrest
      rcases counts_of_countsAtTop htop (Bool.eq_false_iff.mpr he) with
        hcounts | ⟨_, _, _, _, _, rfl, hbound, hy⟩
      · exact absurd hdown (not_leads hcounts)
      · exact comparedAtTop_of_countBound? hbound hy hdown

end Expr

end TupleLogic.Relational

namespace TupleLogic.Encoding

open Relational Encoder

/-! ## Runs -/

/-- Some run of the encoder gives a result. -/
def Succeeds {α : Type} (m : Encoder α) : Prop := ∃ p a q, Returns m p a q

section Runs

variable {α β : Type} {v : Vocabulary} {encoding lhs rhs : Encoder Encoded}

theorem Succeeds.first {m : Encoder α} {f : α → Encoder β} (h : Succeeds (m >>= f)) :
    Succeeds m := by
  obtain ⟨p, _, _, h⟩ := h
  obtain ⟨a, q, h, _⟩ := returns_bind.mp h
  exact ⟨p, a, q, h⟩

theorem Succeeds.next {m : Encoder α} {f : α → Encoder β} (h : Succeeds (m >>= f)) :
    ∃ a, Succeeds (f a) := by
  obtain ⟨_, b, q, h⟩ := h
  obtain ⟨a, p, _, h⟩ := returns_bind.mp h
  exact ⟨a, p, b, q, h⟩

theorem not_succeeds_unsupported {cause : Unsupported} :
    ¬ Succeeds (α := α) (unsupported cause) := by
  rintro ⟨_, _, _, h⟩
  exact not_returns_unsupported h

theorem Succeeds.of_mapM {f : α → Encoder β} {xs : List α} (h : Succeeds (xs.mapM f)) :
    ∀ x ∈ xs, Succeeds (f x) := by
  obtain ⟨p, bs, q, h⟩ := h
  induction xs generalizing p bs with
  | nil => exact List.forall_mem_nil _
  | cons x xs ih =>
    obtain ⟨b, r, bs', hx, hxs, _⟩ := returns_mapM_cons.mp h
    exact List.forall_mem_cons.mpr ⟨⟨p, b, r, hx⟩, ih r bs' hxs⟩

theorem Succeeds.of_forM {f : α → Encoder PUnit} {xs : List α} (h : Succeeds (xs.forM f)) :
    ∀ x ∈ xs, Succeeds (f x) := by
  obtain ⟨p, u, q, h⟩ := h
  induction xs generalizing p u with
  | nil => exact List.forall_mem_nil _
  | cons x xs ih =>
    obtain ⟨r, hx, hxs⟩ := returns_forM_cons.mp h
    exact List.forall_mem_cons.mpr ⟨⟨p, ⟨⟩, r, hx⟩, ih r ⟨⟩ hxs⟩

theorem Succeeds.of_formula (h : Succeeds (formula encoding)) : Succeeds encoding := h.first

theorem Succeeds.of_relation (h : Succeeds (relation encoding)) : Succeeds encoding := h.first

theorem Succeeds.of_both {build : Term → Term → Term} (h : Succeeds (both lhs rhs build)) :
    Succeeds lhs ∧ Succeeds rhs := by
  obtain ⟨_, hrhs⟩ := h.next
  exact ⟨h.first, hrhs.first⟩

theorem Succeeds.of_setOperation {build : Term → Term → Term}
    (h : Succeeds (setOperation lhs rhs build)) : Succeeds lhs ∧ Succeeds rhs :=
  ⟨h.of_both.1.of_relation, h.of_both.2.of_relation⟩

theorem Succeeds.of_joinRelations {expr : String} (h : Succeeds (joinRelations expr lhs rhs)) :
    Succeeds lhs ∧ Succeeds rhs := by
  obtain ⟨_, hrhs⟩ := h.next
  exact ⟨h.first.of_relation, hrhs.first.of_relation⟩

theorem Succeeds.of_connective {build : Term → Term → Term}
    (h : Succeeds (connective lhs rhs build)) : Succeeds lhs ∧ Succeeds rhs := by
  obtain ⟨_, hrhs⟩ := h.next
  exact ⟨h.first.of_formula, hrhs.first.of_formula⟩

theorem Succeeds.of_conjunction {operands : List (Encoder Encoded)}
    (h : Succeeds (conjunction operands)) : ∀ m ∈ operands, Succeeds m := h.first.of_mapM

theorem Succeeds.of_disjunction {operands : List (Encoder Encoded)}
    (h : Succeeds (disjunction operands)) : ∀ m ∈ operands, Succeeds m :=
  fun m hm => (h.first.of_mapM m hm).of_formula

theorem Succeeds.of_quantify {q : Relational.Quantifier} {bind : Encoder Bound}
    {body : Scope → Encoder Encoded} (h : Succeeds (quantify q bind body)) :
    Succeeds bind ∧ ∃ scope, Succeeds (body scope) := by
  obtain ⟨xs, hxs⟩ := h.next
  refine ⟨h.first, xs.scope, ?_⟩
  cases q with
  | all | no | lone => exact hxs.first.of_formula
  | some | one => exact hxs.first

/-- Nothing but a cardinality refuses its operand outright. -/
theorem Succeeds.of_unaryExpr {op : Relational.UnaryOp} {arg : Expr}
    (h : Succeeds (unaryExpr v op arg encoding)) : op ≠ .card ∧ Succeeds encoding := by
  cases op with
  | card => exact absurd h not_succeeds_unsupported
  | not => exact ⟨by decide, h.first.of_formula⟩
  | closure | reflexiveClosure | transpose => exact ⟨by decide, h.first.first.of_relation⟩
  | toInt | toSigned => exact ⟨by decide, h⟩
  | no | some | one | lone => exact ⟨by decide, h.first.of_relation⟩

/-- A number is encoded unless it is a literal. -/
theorem Succeeds.of_intValue {e : Expr} (h : Succeeds (intValue v e encoding)) :
    (∃ k, e.literal? = some k) ∨ Succeeds encoding := by
  unfold intValue at h
  split at h
  · rename_i k hk
    exact .inl ⟨k, hk⟩
  · exact .inr h.first.of_relation

/-- A comparison of cardinalities stands at the top and bounds one of them. -/
theorem Succeeds.of_countComparison {expr : String} {pos : Position} {c : Comparison} {k : Int}
    (h : Succeeds (countComparison expr pos c k encoding)) :
    pos = .top ∧ (∃ bound, CountBound.ofComparison? c k = some bound) ∧ Succeeds encoding := by
  unfold countComparison at h
  split at h
  · exact absurd h not_succeeds_unsupported
  · rename_i bound hbound
    split at h
    · rename_i htop
      exact ⟨htop, ⟨bound, hbound⟩, h.first⟩
    · exact absurd h not_succeeds_unsupported

/-- A comparison where a side is counted bounds that side by a literal. -/
theorem Succeeds.of_cardinality {expr : String} {op : Relational.BinaryOp} {a b : Expr}
    {pos : Position} {c : Comparison} {set : Expr → Encoder Encoded} (hop : op.comparison? = some c)
    (h : Succeeds (cardinality expr pos c (a.cardinal?.map set) (b.cardinal?.map set)
      a.literal? b.literal?)) :
    pos = .top ∧ ∃ x bound, countBound? op a b = some (x, bound) ∧
      (a.cardinal? = some x ∨ b.cardinal? = some x) ∧ Succeeds (set x) := by
  unfold cardinality at h
  split at h
  · rename_i m k hm hk
    obtain ⟨x, hx, rfl⟩ := Option.map_eq_some_iff.mp hm
    obtain ⟨htop, ⟨bound, hbound⟩, hset⟩ := h.of_countComparison
    refine ⟨htop, x, bound, ?_, .inl hx, hset⟩
    simp [countBound?, hop, hx, hk, hbound]
  · rename_i hleft
    split at h
    · rename_i m k hm hk
      obtain ⟨x, hx, rfl⟩ := Option.map_eq_some_iff.mp hm
      obtain ⟨htop, ⟨bound, hbound⟩, hset⟩ := h.of_countComparison
      refine ⟨htop, x, bound, ?_, .inr hx, hset⟩
      cases ha : a.cardinal? with
      | none => simp [countBound?, hop, ha, hx, hk, hbound]
      | some y =>
        cases hb : b.literal? with
        | none => simp [countBound?, hop, hb, hx, hk, hbound]
        | some j => exact absurd hb (hleft _ j (by rw [ha, Option.map_some]))
    · exact absurd h not_succeeds_unsupported

end Runs

/-! ## Facts -/

/-- What an expression may count in a position. -/
def Position.Admits : Position → Expr → Prop
  | .top, e => e.countsAtTop = true
  | .nested, e => e.counts = false

theorem Position.admits_of_counts {pos : Position} {e : Expr} (he : e.isConjunction = false)
    (h : e.counts = false) : pos.Admits e := by
  cases pos with
  | nested => exact h
  | top =>
    cases e with
    | binary op a b =>
      have hand : op ≠ .and := by
        rintro rfl
        cases he
      change Expr.countsAtTop _ = true
      rw [Expr.counts, Bool.or_eq_false_iff] at h
      rw [Expr.countsAtTop, if_neg hand]
      cases hbound : countBound? op a b with
      | none => simp [h.1, h.2]
      | some found =>
        obtain ⟨_, _, _, ⟨ha, _⟩ | ⟨_, hb, _⟩⟩ := countBound?_cases hbound
        · rw [cardinal?_of_counts h.1] at ha
          cases ha
        · rw [cardinal?_of_counts h.2] at hb
          cases hb
    | list op es =>
      cases op with
      | and => cases he
      | or => simpa [Position.Admits, Expr.countsAtTop] using h
    | _ => simpa [Position.Admits, Expr.countsAtTop] using h

theorem Position.admits_conjunction {pos : Position} {a b : Expr} (ha : pos.Admits a)
    (hb : pos.Admits b) : pos.Admits (.binary .and a b) := by
  cases pos with
  | nested =>
    change Expr.counts _ = false
    rw [Expr.counts, ha, hb]
    rfl
  | top =>
    change Expr.countsAtTop _ = true
    rw [Expr.countsAtTop, if_pos rfl, ha, hb]
    rfl

theorem Position.admits_list {pos : Position} {es : List Expr} (h : ∀ e ∈ es, pos.Admits e) :
    pos.Admits (.list .and es) := by
  cases pos with
  | nested =>
    change Expr.counts _ = false
    rw [Expr.counts, Expr.countsAny_eq, List.any_eq_false]
    exact fun e he => Bool.eq_false_iff.mp (h e he)
  | top =>
    change Expr.countsAtTop _ = true
    rw [Expr.countsAtTop]
    induction es with
    | nil => rfl
    | cons e es ih =>
      obtain ⟨he, hes⟩ := List.forall_mem_cons.mp h
      rw [countAtTop, ih hes, Bool.and_true]
      exact he

section Facts

variable {v : Vocabulary}

/-- An operator that is no conjunction and bounds no cardinality encodes both
sides, literals apart. -/
theorem counts_of_binaryExpr {op : Relational.BinaryOp} {a b : Expr} {lhs rhs : Encoder Encoded}
    {conjuncts : List (Encoder Encoded)} (hop : op ≠ .and)
    (h : Succeeds (binaryExpr v op a b lhs rhs conjuncts))
    (ha : Succeeds lhs → a.counts = false) (hb : Succeeds rhs → b.counts = false) :
    (Expr.binary op a b).counts = false := by
  have hboth : Succeeds lhs ∧ Succeeds rhs → (Expr.binary op a b).counts = false := by
    intro h
    rw [Expr.counts, ha h.1, hb h.2]
    rfl
  have hnumber : ∀ {e : Expr} {enc : Encoder Encoded}, (Succeeds enc → e.counts = false) →
      Succeeds (intValue v e enc) → e.counts = false := by
    intro e enc he h
    rcases h.of_intValue with ⟨k, hk⟩ | henc
    · exact Expr.counts_of_literal? hk
    · exact he henc
  cases op with
  | and => exact absurd rfl hop
  | join => exact hboth h.of_joinRelations
  | union | intersection | difference | product | equals | inside => exact hboth h.of_setOperation
  | notEquals | notInside => exact hboth h.first.of_formula.of_setOperation
  | or =>
    have h := h.of_disjunction
    exact hboth ⟨h lhs (by simp), h rhs (by simp)⟩
  | implies | iff => exact hboth h.of_connective
  | lt | le | gt | ge =>
    rw [Expr.counts, hnumber ha h.of_both.1, hnumber hb h.of_both.2]
    rfl

mutual
theorem admits_of_succeeds : ∀ {e : Expr} {scope : Scope} {pos : Position},
    Succeeds (encode v e scope pos) → pos.Admits e
  | .sig _, _, _, _ | .field _, _, _, _ | .builtin _, _, _, _ | .var _, _, _, _
  | .int _, _, _, _ => Position.admits_of_counts rfl rfl
  | .unary op e, scope, pos, h => by
    rw [encode] at h
    obtain ⟨hop, he⟩ := h.of_unaryExpr
    have he : e.counts = false := admits_of_succeeds he
    refine Position.admits_of_counts ?_ (by simp [Expr.counts, hop, he])
    rfl
  | .binary op a b, scope, pos, h => by
    have hplain : Succeeds (binaryExpr v op a b (encode v a scope .nested)
        (encode v b scope .nested) [encode v a scope pos, encode v b scope pos]) →
        pos.Admits (.binary op a b) := by
      intro h
      by_cases hop : op = .and
      · subst hop
        obtain ⟨ha, hb⟩ := List.forall_mem_cons.mp h.of_conjunction
        exact Position.admits_conjunction (admits_of_succeeds ha)
          (admits_of_succeeds (List.forall_mem_singleton.mp hb))
      · refine Position.admits_of_counts ?_ (counts_of_binaryExpr hop h
          (fun ha => admits_of_succeeds ha) fun hb => admits_of_succeeds hb)
        cases op with
        | and => exact absurd rfl hop
        | _ => rfl
    rw [encode] at h
    split at h
    · exact hplain h
    · rename_i c hc
      dsimp only at h
      split at h
      · rw [encodeCounted_eq, encodeCounted_eq] at h
        obtain ⟨rfl, x, bound, hbound, hx, hset⟩ := h.of_cardinality hc
        have hcounts : x.counts = false := by
          rcases hx with ha | hb
          · exact counts_of_cardinal? ha hset.of_relation
          · exact counts_of_cardinal? hb hset.of_relation
        have hand : op ≠ .and := by
          rintro rfl
          cases hc
        change Expr.countsAtTop _ = true
        rw [Expr.countsAtTop, if_neg hand, hbound]
        exact congrArg not hcounts
      · exact hplain h
  | .list .and es, scope, pos, h => by
    rw [encode] at h
    exact Position.admits_list (admits_of_succeedsAll h.of_conjunction)
  | .list .or es, scope, pos, h => by
    rw [encode] at h
    have hes : ∀ e ∈ es, Position.nested.Admits e := admits_of_succeedsAll h.of_disjunction
    refine Position.admits_of_counts rfl ?_
    rw [Expr.counts, Expr.countsAny_eq, List.any_eq_false]
    exact fun e he => Bool.eq_false_iff.mp (hes e he)
  | .quantified q bs body, scope, pos, h => by
    rw [encode] at h
    obtain ⟨hbs, inner, hbody⟩ := h.of_quantify
    have hbody : body.counts = false := admits_of_succeeds hbody
    refine Position.admits_of_counts rfl ?_
    rw [Expr.counts, hbody, Bool.or_false]
    exact counts_of_bindings hbs

/-- What is counted below casts counts nothing itself. -/
theorem counts_of_cardinal? : ∀ {e x : Expr} {scope : Scope}, e.cardinal? = some x →
    Succeeds (encode v x scope .nested) → x.counts = false
  | .unary op e, x, scope, hx, h => by
    cases op with
    | toInt | toSigned => exact counts_of_cardinal? (e := e) hx h
    | card =>
      obtain rfl := Option.some.inj hx
      exact admits_of_succeeds (e := e) h
    | _ => cases hx
  | .sig _, _, _, hx, _ | .field _, _, _, hx, _ | .builtin _, _, _, hx, _ | .var _, _, _, hx, _
  | .int _, _, _, hx, _ | .binary .., _, _, hx, _ | .list .., _, _, hx, _
  | .quantified .., _, _, hx, _ => by cases hx

theorem admits_of_succeedsAll : ∀ {es : List Expr} {scope : Scope} {pos : Position},
    (∀ m ∈ encodeAll v es scope pos, Succeeds m) → ∀ e ∈ es, pos.Admits e
  | [], _, _, _ => List.forall_mem_nil _
  | e :: es, scope, pos, h => by
    rw [encodeAll] at h
    obtain ⟨he, hes⟩ := List.forall_mem_cons.mp h
    exact List.forall_mem_cons.mpr ⟨admits_of_succeeds he, admits_of_succeedsAll hes⟩

theorem counts_of_bindings : ∀ {bs : List (Binding Expr)} {scope : Scope},
    Succeeds (encodeBindings v bs scope) → countsBound bs = false
  | [], _, _ => rfl
  | b :: bs, scope, h => by
    rw [encodeBindings] at h
    obtain ⟨set, hset⟩ := h.next
    obtain ⟨first, hfirst⟩ := hset.next
    have hbound : b.bound.counts = false := admits_of_succeeds h.first.first.of_relation
    rw [countsBound, hbound, Bool.false_or]
    exact counts_of_bindings hfirst.first
end

end Facts

theorem Succeeds.of_encodeModel {m : Model} {fieldTyping : Bool}
    (h : Succeeds (encodeModel fieldTyping m)) :
    ∃ v : Vocabulary, ∀ fact ∈ m.facts, Succeeds (assertFact v fact.name fact.body) := by
  obtain ⟨v, hv⟩ := h.next
  obtain ⟨_, hfields⟩ := hv.next
  have hrest : Succeeds (do
      forFields m (assertFieldMultiplicity v)
      m.facts.forM fun fact => assertFact v fact.name fact.body) := by
    cases fieldTyping with
    | false => exact hfields
    | true => exact hfields.next.choose_spec
  obtain ⟨_, hfacts⟩ := hrest.next
  exact ⟨v, hfacts.of_forM⟩

/-- In a model that can be encoded every cardinality, wherever it occurs in a
fact, is compared with a literal below conjunctions alone. -/
theorem encode_counts_at_top {m : Model} {settings : Settings} {names names' : NameSupply}
    {s : Script} (h : m.encode settings names = (.ok s, names')) :
    ∀ fact ∈ m.facts, ∀ path x, fact.body.Leads (fun _ => true) path (.unary .card x) →
      fact.body.ComparedAtTop path x := by
  intro fact hfact path x hpath
  obtain ⟨u, hrun⟩ := returns_of_encode h
  obtain ⟨v, hfacts⟩ := Succeeds.of_encodeModel ⟨_, u, _, hrun⟩
  have htop : fact.body.countsAtTop = true :=
    admits_of_succeeds (hfacts fact hfact).first.of_formula
  exact Expr.comparedAtTop_of_countsAtTop htop hpath

/-- At most three atoms and, as a number, two of them. -/
def boundedModel : Model where
  signatures := [⟨"A", .top, [], []⟩]
  facts := [⟨"few", .list .and [.binary .ge (.int 3) (.unary .card (.sig ⟨0⟩)),
    .binary .and (.quantified .some [⟨["x"], .sig ⟨0⟩⟩] (.binary .inside (.var "x") (.sig ⟨0⟩)))
      (.binary .equals (.unary .toInt (.unary .card (.sig ⟨0⟩))) (.unary .toSigned (.int 2)))]⟩]

/-- The second cardinality stands below two conjunctions and a cast. -/
theorem encode_counts_at_top_bounded :
    (boundedModel.encode {} {}).1.isOk = true ∧
      ∀ fact ∈ boundedModel.facts,
        fact.body.Leads (fun _ => true) [1, 1, 0, 0] (.unary .card (.sig ⟨0⟩)) ∧
        fact.body.ComparedAtTop [1, 1, 0, 0] (.sig ⟨0⟩) := by
  have hok : (boundedModel.encode {} {}).1.isOk = true := by decide +kernel
  obtain ⟨s, names, hs⟩ := encode_of_isOk hok
  refine ⟨hok, fun fact hfact => ?_⟩
  have hpath : fact.body.Leads (fun _ => true) [1, 1, 0, 0] (.unary .card (.sig ⟨0⟩)) := by
    obtain rfl := List.mem_singleton.mp hfact
    exact .down rfl rfl (.down rfl rfl (.down rfl rfl (.down rfl rfl (.here _))))
  exact ⟨hpath, encode_counts_at_top hs fact hfact _ _ hpath⟩

end TupleLogic.Encoding
