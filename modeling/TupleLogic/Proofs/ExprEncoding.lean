import TupleLogic.Proofs.QuantifierEncoding

/-! The encoding of all formulas. By induction on how a formula is typed, what
its parts mean makes up what the whole means; a formula that counts nothing is
encoded alike at the top of a fact and below it. -/

namespace TupleLogic.Encoding

open Relational Encoder

variable {v : Vocabulary} {scope : Scope} {p q : Progress} {r : Encoded}

/-! ## Counting -/

/-- Below the top of a fact nothing is counted. -/
theorem not_returns_cardinality {expr : String} {c : Comparison} {lhs rhs : Option (Encoder Encoded)}
    {m n : Option Int} : ¬ Returns (cardinality expr .nested c lhs rhs m n) p r q := by
  have hcount : ∀ {c k set}, ¬ Returns (countComparison expr .nested c k set) p r q := by
    intro c k set h
    cases (returns_countComparison.mp h).1
  intro h
  unfold cardinality at h
  split at h
  · exact hcount h
  · split at h
    · exact hcount h
    · exact not_returns_unsupported h

/-- An expression that counts is recognised as one. -/
theorem isSome_encodeCounted : ∀ e : Expr, e.countsAtoms v.model = true →
    (encodeCounted v e scope).isSome = true
  | .unary op e, h => by
    cases op with
    | toInt | toSigned => exact isSome_encodeCounted e h
    | card => rfl
    | _ => cases h

/-- A binary expression below the top of a fact is encoded as one that counts
nothing, and involves integers if an operand does. -/
theorem returns_binary_nested {op : Relational.BinaryOp} {a b : Expr}
    (h : Returns (encode v (.binary op a b) scope .nested) p r q) :
    Returns (binaryExpr v op a b (encode v a scope .nested) (encode v b scope .nested)
      [encode v a scope .nested, encode v b scope .nested]) p r q ∧
      ∀ e ∈ [a, b], InvolvesInt v.model e → InvolvesInt v.model (.binary op a b) := by
  have hint : ((encodeCounted v a scope).isSome || (encodeCounted v b scope).isSome) = false ∨
      op.comparison? = none →
      ∀ e ∈ [a, b], InvolvesInt v.model e → InvolvesInt v.model (.binary op a b) := by
    intro hplain e he hi
    unfold InvolvesInt at hi ⊢
    have hor : (a.usesInt v.model || b.usesInt v.model) = true := by
      rcases List.mem_cons.mp he with rfl | he
      · rw [hi, Bool.true_or]
      · rw [← List.mem_singleton.mp he, hi, Bool.or_true]
    rcases hplain with hnone | hop
    · rw [Bool.or_eq_false_iff] at hnone
      have ha : a.countsAtoms v.model = false := Bool.eq_false_iff.mpr fun h => by
        rw [isSome_encodeCounted a h] at hnone
        cases hnone.1
      have hb : b.countsAtoms v.model = false := Bool.eq_false_iff.mpr fun h => by
        rw [isSome_encodeCounted b h] at hnone
        cases hnone.2
      simp [Expr.usesInt, hor, ha, hb]
    · simp [Expr.usesInt, hor, hop]
  rw [encode] at h
  split at h
  · rename_i hop
    exact ⟨h, hint (.inr hop)⟩
  · dsimp only at h
    split at h
    · exact (not_returns_cardinality h).elim
    · rename_i hnone
      exact ⟨h, hint (.inl (Bool.eq_false_iff.mpr hnone))⟩

theorem Meaning.binary {op : Relational.BinaryOp} {a b : Expr}
    (h : (∀ e ∈ [a, b], InvolvesInt v.model e → InvolvesInt v.model (.binary op a b)) →
      Meaning v scope (.binary op a b) (binaryExpr v op a b (encode v a scope .nested)
        (encode v b scope .nested) [encode v a scope .nested, encode v b scope .nested])) :
    Meaning v scope (.binary op a b) (encode v (.binary op a b) scope .nested) := by
  intro p r q hv hs hr
  obtain ⟨hr, hint⟩ := returns_binary_nested hr
  exact h hint p r q hv hs hr

/-! ## All formulas -/

theorem numbers_encode {op : Relational.BinaryOp} {a b : Expr} (hop : op ∈ [.lt, .le, .gt, .ge])
    (ha : HasColumns v.model a [.int]) (hb : HasColumns v.model b [.int]) :
    Meaning v scope (.binary op a b) (encode v (.binary op a b) scope .nested) := by
  refine .binary fun hint => ?_
  have hint : InvolvesInt v.model (.binary op a b) := hint a (by simp) (ha.involvesInt (by simp))
  simp only [List.mem_cons, List.not_mem_nil, or_false] at hop
  rcases hop with rfl | rfl | rfl | rfl
  · exact numbers_meaning ha hb hint (fun hx hy => ⟨hx, hy⟩) (fun _ _ => ⟨_, rfl⟩) Iff.rfl Iff.rfl
  · exact numbers_meaning ha hb hint (fun hx hy => ⟨hx, hy⟩) (fun _ _ => ⟨_, rfl⟩) Iff.rfl Iff.rfl
  · exact numbers_meaning ha hb hint (fun hx hy => ⟨hx, hy⟩) (fun _ _ => ⟨_, rfl⟩) Iff.rfl Iff.rfl
  · exact numbers_meaning ha hb hint (fun hx hy => ⟨hx, hy⟩) (fun _ _ => ⟨_, rfl⟩) Iff.rfl Iff.rfl

theorem relations_encode {op : Relational.BinaryOp} {a b : Expr} {cs : List ColumnType}
    (hop : op ∈ [.equals, .notEquals, .inside, .notInside]) (ha : HasColumns v.model a cs)
    (hb : HasColumns v.model b cs) :
    Meaning v scope (.binary op a b) (encode v (.binary op a b) scope .nested) := by
  simp only [List.mem_cons, List.not_mem_nil, or_false] at hop
  rcases hop with rfl | rfl | rfl | rfl
  · exact .binary fun _ => equals_relations ha hb
  · exact .binary fun _ => (equals_relations ha hb).negated Iff.rfl id
  · exact .binary fun _ => subset_relations ha hb
  · exact .binary fun _ => (subset_relations ha hb).negated Iff.rfl id

theorem connective_encode {op : Relational.BinaryOp} {a b : Expr}
    (hop : op ∈ [.and, .or, .implies, .iff])
    (ha : Meaning v scope a (encode v a scope .nested))
    (hb : Meaning v scope b (encode v b scope .nested)) :
    Meaning v scope (.binary op a b) (encode v (.binary op a b) scope .nested) := by
  simp only [List.mem_cons, List.not_mem_nil, or_false] at hop
  refine .binary fun hint => ?_
  rcases hop with rfl | rfl | rfl | rfl
  · refine .conjunction (.cons ha (.cons hb .nil)) ?_ hint
    intro α I env
    simp [Instance.Holds]
  · refine .disjunction (.cons ha (.cons hb .nil)) ?_ hint
    intro α I env
    simp [Instance.Holds]
  · exact ha.connective hb (fun hx hy => ⟨hx, hy⟩) (fun _ _ => ⟨_, rfl⟩)
      (fun _ _ hx hy => imp_congr hx hy) hint
  · refine ha.connective hb (fun hx hy => ⟨hx, hy⟩) (fun _ _ => ⟨_, rfl⟩) ?_ hint
    intro f α E I M env x y hfx hfy hx hy
    rw [Term.holds_equals, Term.eval_eq_iff (hfx E M) (hfy E M)]
    exact iff_congr hx hy

theorem encodeAll_forall₂ {es : List Expr} {pos : Position}
    (h : ∀ e ∈ es, Meaning v scope e (encode v e scope pos)) :
    List.Forall₂ (Meaning v scope) es (encodeAll v es scope pos) := by
  induction es with
  | nil => exact .nil
  | cons e es ih =>
    rw [List.forall_mem_cons] at h
    exact .cons h.1 (ih h.2)

theorem forall_meanings {α : Type} {I : Instance α} {env : Env α} {es : List Expr} :
    (∀ c ∈ I.meanings es env, c) ↔ ∀ e ∈ es, I.Holds e env := by
  induction es with
  | nil => simp [Instance.meanings]
  | cons e es ih => rw [Instance.meanings, List.forall_mem_cons, List.forall_mem_cons, ih]

theorem exists_meanings {α : Type} {I : Instance α} {env : Env α} {es : List Expr} :
    (∃ c ∈ I.meanings es env, c) ↔ ∃ e ∈ es, I.Holds e env := by
  induction es with
  | nil => simp [Instance.meanings]
  | cons e es ih => rw [Instance.meanings, List.exists_mem_cons_iff, List.exists_mem_cons_iff, ih]

theorem involvesInt_list {m : Model} {op : ListOp} {es : List Expr} :
    ∀ e ∈ es, InvolvesInt m e → InvolvesInt m (.list op es) := by
  intro e he hi
  unfold InvolvesInt at hi ⊢
  rw [Expr.usesInt]
  induction es with
  | nil => cases he
  | cons e' es ih =>
    rw [usesIntAny, Bool.or_eq_true]
    rcases List.mem_cons.mp he with rfl | he
    · exact .inl hi
    · exact .inr (ih he)

theorem quantified_encode {qu : Relational.Quantifier} {bs : List (Binding Expr)} {body : Expr}
    (ht : ∀ g ∈ bs, HasColumns v.model g.bound [.atom]) (hne : bs.flatMap Binding.names ≠ [])
    (hbody : ∀ inner, Meaning v inner body (encode v body inner .nested)) :
    Meaning v scope (.quantified qu bs body) (encode v (.quantified qu bs body) scope .nested) := by
  rw [encode]
  cases qu with
  | all => exact all_meaning ht hbody
  | some => exact exists_meaning ht hbody hne
  | no => exact none_meaning ht hbody
  | one => exact unique_meaning ht hbody hne
  | lone => exact atMostOne_meaning ht hbody

/-- The encoding of a formula below the top of a fact means what the formula
means. -/
theorem encode_meaning {e : Expr} (h : WellTyped v.model e) :
    ∀ scope, Meaning v scope e (encode v e scope .nested) := by
  induction h with
  | multiplicity hop ht =>
    intro scope
    simp only [List.mem_cons, List.not_mem_nil, or_false] at hop
    rw [encode]
    rcases hop with rfl | rfl | rfl | rfl
    · exact no_meaning ht
    · exact some_meaning ht
    · exact one_meaning ht
    · exact lone_meaning ht
  | not _ ih => exact fun scope => (ih scope).negated Iff.rfl InvolvesInt.unary
  | relations hop ha hb => exact fun scope => relations_encode hop ha hb
  | numbers hop ha hb => exact fun scope => numbers_encode hop ha hb
  | connective hop _ _ iha ihb => exact fun scope => connective_encode hop (iha scope) (ihb scope)
  | @list op es _ ih =>
    intro scope
    have hall := encodeAll_forall₂ fun e he => ih e he scope
    cases op with
    | and => exact .conjunction hall forall_meanings involvesInt_list
    | or => exact .disjunction hall exists_meanings involvesInt_list
  | quantified ht hne _ ih => exact fun scope => quantified_encode ht hne ih

/-! ## Formulas that count nothing -/

theorem encodeCounted_eq_none : ∀ e : Expr, e.counts = false → encodeCounted v e scope = none
  | .unary op e, h => by
    rw [Expr.counts, Bool.or_eq_false_iff] at h
    cases op with
    | toInt | toSigned => exact encodeCounted_eq_none e h.2
    | card => cases h.1
    | _ => rfl
  | .sig _, _ | .field _, _ | .builtin _, _ | .var _, _ | .int _, _ | .binary _ _ _, _
  | .list _ _, _ | .quantified _ _ _, _ => rfl

mutual
/-- Only a cardinality asks where it stands. -/
theorem encode_position (pos : Position) : ∀ e : Expr, e.counts = false →
    encode v e scope pos = encode v e scope .nested
  | .sig _, _ | .field _, _ | .builtin _, _ | .var _, _ | .int _, _ | .unary _ _, _
  | .quantified _ _ _, _ | .list .or _, _ => rfl
  | .binary op a b, h => by
    rw [Expr.counts, Bool.or_eq_false_iff] at h
    rw [encode, encode, encode_position pos a h.1, encode_position pos b h.2]
    split
    · rfl
    · simp only [encodeCounted_eq_none a h.1, encodeCounted_eq_none b h.2]
      rfl
  | .list .and es, h => congrArg conjunction (encodeAll_position pos es h)

theorem encodeAll_position (pos : Position) : ∀ es : List Expr, countsAny es = false →
    encodeAll v es scope pos = encodeAll v es scope .nested
  | [], _ => rfl
  | e :: es, h => by
    rw [countsAny, Bool.or_eq_false_iff] at h
    rw [encodeAll, encodeAll, encode_position pos e h.1, encodeAll_position pos es h.2]
end

end TupleLogic.Encoding
