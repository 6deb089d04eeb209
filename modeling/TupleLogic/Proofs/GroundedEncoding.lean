import TupleLogic.Proofs.Assertions
import TupleLogic.Proofs.EncoderState

/-! Expressions are encoded as grounded terms, whether or not they are well
typed. Each construct keeps the state sound and puts grounded parts together;
what an expression may mention is the variables of its scope. -/

namespace TupleLogic.Relational

mutual
/-- The integer literals of an expression. -/
def Expr.literals : Expr → List Int
  | .sig _ | .field _ | .builtin _ | .var _ => []
  | .int n => [n]
  | .unary _ e => e.literals
  | .binary _ a b => a.literals ++ b.literals
  | .list _ es => literalsAll es
  | .quantified _ bs body => literalsBound bs ++ body.literals

def literalsAll : List Expr → List Int
  | [] => []
  | e :: es => e.literals ++ literalsAll es

def literalsBound : List (Binding Expr) → List Int
  | [] => []
  | b :: bs => b.bound.literals ++ literalsBound bs
end

theorem Expr.literals_uncast : ∀ e : Expr, e.uncast.literals = e.literals
  | .unary op e => by
    cases op with
    | toInt | toSigned => exact literals_uncast e
    | _ => rfl
  | .sig _ | .field _ | .builtin _ | .var _ | .int _ | .binary .. | .list .. | .quantified .. => rfl

theorem Expr.literal?_mem {e : Expr} {n : Int} (h : e.literal? = some n) : n ∈ e.literals := by
  rw [← literals_uncast]
  unfold literal? at h
  split at h
  · rename_i k hk
    rw [Option.some.injEq] at h
    rw [hk, h]
    exact List.mem_singleton.mpr rfl
  · cases h

end TupleLogic.Relational

namespace TupleLogic.Encoding

open Relational Encoder

variable {v : Vocabulary} {start : Nat} {bound : List DeclId}

/-! ## References -/

theorem HasFunction.precedes {s : Script} {name : String} {inputs : List TermSort}
    {output : TermSort} {id : DeclId} (h : HasFunction s name inputs output id) :
    s.precedes 0 id = true := by
  rw [Script.precedes, h.2]

theorem keeps_sigRelation (id : SigId) :
    Keeps v start (v.sigRelation id) fun s t => Grounded s bound t := by
  intro p t q hp h
  obtain ⟨d, hd, rfl, rfl⟩ := returns_sigRelation.mp h
  obtain ⟨_, _, hf⟩ := hp.vocabulary.sig hd
  exact ⟨.refl hp, .declared hf.precedes⟩

theorem keeps_fieldRelation (id : FieldId) :
    Keeps v start (v.fieldRelation id) fun s t => Grounded s bound t := by
  intro p t q hp h
  obtain ⟨d, hd, rfl, rfl⟩ := returns_fieldRelation.mp h
  obtain ⟨_, _, _, _, hf⟩ := hp.vocabulary.field hd
  exact ⟨.refl hp, .declared hf.precedes⟩

theorem keeps_builtinRelation (b : Builtin) :
    Keeps v start (v.builtinRelation b) fun s t => Grounded s bound t := by
  intro p t q hp h
  cases b with
  | univ =>
    obtain ⟨rfl, rfl⟩ := returns_pure.mp h
    exact ⟨.refl hp, .declared hp.vocabulary.univ.precedes⟩
  | none =>
    obtain ⟨rfl, rfl⟩ := returns_pure.mp h
    exact ⟨.refl hp, .declared hp.vocabulary.none.precedes⟩
  | iden =>
    obtain ⟨rfl, rfl⟩ := returns_pure.mp h
    exact ⟨.refl hp, .declared hp.vocabulary.iden.precedes⟩
  | int => exact (not_returns_unsupported h).elim

/-! ## Formulas and relations -/

section Constructs

variable {lhs rhs encoding : Encoder Encoded}

theorem keeps_formula (h : Keeps v start encoding fun s e => e.Grounded s bound) :
    Keeps v start (formula encoding) fun s t => Grounded s bound t := by
  intro p t q hp ht
  obtain ⟨e, he, hclose⟩ := returns_formula.mp ht
  obtain ⟨hq, he⟩ := h hp he
  exact ⟨hq, he.close hclose⟩

theorem grounded_promote {p q : Progress} {t u : Term} (ht : Grounded p.script bound t)
    (h : Returns (promote t) p u q) : q = p ∧ Grounded p.script bound u := by
  unfold promote at h
  split at h
  · obtain ⟨rfl, rfl⟩ := returns_pure.mp h
    exact ⟨rfl, ht⟩
  · simp only [returns_bind, returns_get, returns_liftTerm] at h
    obtain ⟨_, _, ⟨rfl, rfl⟩, d, _, ⟨_, rfl⟩, h⟩ := h
    split at h
    · obtain ⟨rfl, rfl⟩ := returns_pure.mp h
      exact ⟨rfl, ht⟩
    · obtain ⟨rfl, rfl⟩ := returns_pure.mp h
      exact ⟨rfl, .unary ht⟩
    · simp only [returns_bind, returns_liftTerm, returns_pure] at h
      obtain ⟨tuple, _, ⟨htuple, rfl⟩, rfl, rfl⟩ := h
      exact ⟨rfl, .unary (grounded_mkTuple (List.forall_mem_singleton.mpr ht) htuple)⟩

theorem keeps_relation (h : Keeps v start encoding fun s e => e.Grounded s bound) :
    Keeps v start (relation encoding) fun s e => e.Grounded s bound := by
  intro p e q hp he
  obtain ⟨e', r, t, he', ht, rfl⟩ := returns_relation.mp he
  obtain ⟨hr, he'⟩ := h hp he'
  obtain ⟨rfl, ht⟩ := grounded_promote he'.term ht
  exact ⟨hr, he'.withTerm ht⟩

theorem keeps_both (hl : Keeps v start lhs fun s e => e.Grounded s bound)
    (hr : Keeps v start rhs fun s e => e.Grounded s bound) {build : Term → Term → Term}
    (hbuild : ∀ {s bound a b}, Grounded s bound a → Grounded s bound b →
      Grounded s bound (build a b)) :
    Keeps v start (both lhs rhs build) fun s e => e.Grounded s bound := by
  intro p e q hp he
  obtain ⟨a, r, b, ha, hb, rfl⟩ := returns_both.mp he
  obtain ⟨hpr, ha⟩ := hl hp ha
  obtain ⟨hrq, hb⟩ := hr hpr.settled hb
  exact ⟨hpr.trans hrq, (ha.extend hrq.extension).both hb hbuild⟩

theorem keeps_setOperation (hl : Keeps v start lhs fun s e => e.Grounded s bound)
    (hr : Keeps v start rhs fun s e => e.Grounded s bound) {build : Term → Term → Term}
    (hbuild : ∀ {s bound a b}, Grounded s bound a → Grounded s bound b →
      Grounded s bound (build a b)) :
    Keeps v start (setOperation lhs rhs build) fun s e => e.Grounded s bound :=
  keeps_both (keeps_relation hl) (keeps_relation hr) hbuild

theorem keeps_joinRelations {expr : String}
    (hl : Keeps v start lhs fun s e => e.Grounded s bound)
    (hr : Keeps v start rhs fun s e => e.Grounded s bound) :
    Keeps v start (joinRelations expr lhs rhs) fun s e => e.Grounded s bound := by
  intro p e q hp he
  exact keeps_setOperation hl hr (fun hs ht => .binary hs ht (by decide)) hp
    (returns_joinRelations he)

theorem keeps_binaryRelation {expr : String}
    (h : Keeps v start encoding fun s e => e.Grounded s bound) {build : Term → Term}
    (hbuild : ∀ {p bound t}, Settled v start p → Grounded p.script bound t →
      Grounded p.script bound (build t)) :
    Keeps v start (do return (← binaryRelation expr encoding).map build)
      fun s e => e.Grounded s bound := by
  intro p e q hp he
  simp only [returns_bind, returns_pure] at he
  obtain ⟨e', _, he', rfl, rfl⟩ := he
  obtain ⟨hq, he'⟩ := keeps_relation h hp (returns_binaryRelation he')
  exact ⟨hq, he'.withTerm (hbuild hq.settled he'.term)⟩

theorem keeps_conjunction {operands : List (Encoder Encoded)}
    (h : ∀ e ∈ operands, Keeps v start e fun s e => e.Grounded s bound) :
    Keeps v start (conjunction operands) fun s e => e.Grounded s bound := by
  intro p e q hp he
  simp only [conjunction, returns_bind, returns_liftTerm, returns_pure] at he
  obtain ⟨es, _, hes, t, _, ⟨ht, rfl⟩, rfl, rfl⟩ := he
  obtain ⟨hq, hes⟩ := keeps_mapM (fun hst he => he.extend hst) h hp hes
  exact ⟨hq, .plain ((Encoded.Grounded.all hes).close ht)⟩

theorem keeps_disjunction {operands : List (Encoder Encoded)}
    (h : ∀ e ∈ operands, Keeps v start e fun s e => e.Grounded s bound) :
    Keeps v start (disjunction operands) fun s e => e.Grounded s bound := by
  intro p e q hp he
  simp only [disjunction, returns_bind, returns_pure] at he
  obtain ⟨ts, _, hts, rfl, rfl⟩ := he
  obtain ⟨hq, hts⟩ := keeps_mapM (P := fun s t => Grounded s bound t)
    (fun hst ht => ht.extend hst) (fun e he => keeps_formula (h e he)) hp hts
  exact ⟨hq, .plain (grounded_disj hts)⟩

theorem keeps_connective (hl : Keeps v start lhs fun s e => e.Grounded s bound)
    (hr : Keeps v start rhs fun s e => e.Grounded s bound) {build : Term → Term → Term}
    (hbuild : ∀ {s bound a b}, Grounded s bound a → Grounded s bound b →
      Grounded s bound (build a b)) :
    Keeps v start (connective lhs rhs build) fun s e => e.Grounded s bound := by
  intro p e q hp he
  simp only [connective, returns_bind, returns_pure] at he
  obtain ⟨a, r, ha, b, _, hb, rfl, rfl⟩ := he
  obtain ⟨hpr, ha⟩ := keeps_formula hl hp ha
  obtain ⟨hrq, hb⟩ := keeps_formula hr hpr.settled hb
  exact ⟨hpr.trans hrq, .plain (hbuild (ha.extend hrq.extension) hb)⟩

theorem keeps_negation (h : Keeps v start encoding fun s e => e.Grounded s bound) :
    Keeps v start (do return (⟨.not (← formula encoding), []⟩ : Encoded))
      fun s e => e.Grounded s bound := by
  intro p e q hp he
  simp only [returns_bind, returns_pure] at he
  obtain ⟨t, _, ht, rfl, rfl⟩ := he
  obtain ⟨hq, ht⟩ := keeps_formula h hp ht
  exact ⟨hq, .plain (.unary ht)⟩

/-! ## Specimens -/

theorem encodable_intSort {w : IntSort} (hw : w ∈ intSorts) :
    (TermSort.named w.sort).encodable = true := by
  simp only [intSorts, List.mem_cons, List.not_mem_nil, or_false] at hw
  rcases hw with rfl | rfl | rfl <;> decide

/-- Drawn variables, and a tuple that mentions no others. -/
def Specimen.Grounded (s : Script) (sample : Specimen) : Prop :=
  (∀ x ∈ sample.vars, IsDrawn s x) ∧ Encoding.Grounded s sample.vars sample.tuple

theorem keeps_specimenColumn {expr : String} {sort : TermSort} (hs : sort.encodable = true) :
    Keeps v start (specimenColumn expr sort)
      fun s c => IsDrawn s c.1 ∧ Grounded s [c.1] c.2 := by
  intro p c q hp h
  unfold specimenColumn at h
  split at h
  · obtain ⟨x, _, hx, h⟩ := returns_bind.mp h
    obtain ⟨rfl, rfl⟩ := returns_pure.mp h
    obtain ⟨hq, hx⟩ := keeps_freshVariable (encodable_intSort (w := unaryInts) (by decide)) hp hx
    refine ⟨hq, hx, .first (.value (w := unaryInts) (by decide) (.bound ?_))⟩
    exact List.mem_singleton.mpr rfl
  · obtain ⟨x, _, hx, h⟩ := returns_bind.mp h
    obtain ⟨rfl, rfl⟩ := returns_pure.mp h
    obtain ⟨hq, hx⟩ := keeps_freshVariable hs hp hx
    exact ⟨hq, hx, .bound (List.mem_singleton.mpr rfl)⟩
  · exact (not_returns_unsupported h).elim

theorem keeps_specimen {expr : String} {sort : TermSort} (hs : sort.encodable = true) :
    Keeps v start (specimen expr sort) fun s sample => sample.Grounded s := by
  intro p sample q hp h
  unfold specimen at h
  split at h
  · exact (not_returns_unsupported h).elim
  · rename_i columns hcolumns
    simp only [returns_bind, returns_liftTerm, returns_pure] at h
    obtain ⟨cs, _, hcs, tuple, _, ⟨htuple, rfl⟩, rfl, rfl⟩ := h
    have hcolumn := encodable_of_columns? hs hcolumns
    obtain ⟨hq, hcs⟩ := keeps_mapM (P := fun s (c : DeclId × Term) => IsDrawn s c.1 ∧ Grounded s [c.1] c.2)
      (fun hst hc => ⟨hc.1.extend hst, hc.2.extend hst⟩)
      (fun c hc => keeps_specimenColumn (hcolumn c hc)) hp hcs
    refine ⟨hq, fun x hx => ?_, grounded_mkTuple (fun t ht => ?_) htuple⟩
    · obtain ⟨c, hc, rfl⟩ := List.mem_map.mp hx
      exact (hcs c hc).1
    · obtain ⟨c, hc, rfl⟩ := List.mem_map.mp ht
      refine (hcs c hc).2.mono (.refl _) fun x hx => ?_
      rw [List.mem_singleton.mp hx]
      exact List.mem_map_of_mem hc

/-! ## Claims that owe witnesses -/

/-- A tuple of integers owes a witness more, of which it is the value. -/
theorem Encoded.Grounded.companion {s : Script} {set : Encoded} {sample : Specimen} {w : IntSort}
    {x : DeclId} {claim : Term} (hw : w ∈ intSorts) (hset : set.Grounded s bound)
    (hsample : sample.Grounded s) (hx : IsDrawn s x)
    (hclaim : Encoding.Grounded s
      (set.witnesses.flatMap Witness.vars ++ (sample.vars ++ bound)) claim) :
    Encoded.Grounded s bound ⟨.bool true, set.witnesses ++
      [⟨sample.vars ++ [x], .and claim (.equals (w.valueOf (.ref x)) sample.tuple)⟩]⟩ := by
  refine hset.owing (fun y hy => ?_) (.nary (by show 1 ≤ 2; decide) fun t ht => ?_) .bool
  · rcases List.mem_append.mp hy with hy | hy
    · exact hsample.1 y hy
    · rw [List.mem_singleton.mp hy]
      exact hx
  · simp only [List.mem_cons, List.not_mem_nil, or_false] at ht
    rcases ht with rfl | rfl
    · refine hclaim.mono (.refl s) (append_subset_append fun y hy => ?_)
      simp only [List.mem_append] at hy ⊢
      tauto
    · refine .binary (.value hw (.bound (by simp))) (hsample.2.mono (.refl s) ?_) (by decide)
      intro y hy
      simp [hy]

theorem keeps_witnessed {expr : String} {guard : Term → Term → Term}
    (h : Keeps v start encoding fun s e => e.Grounded s bound)
    (hguard : ∀ {s bound tuple set}, Grounded s bound tuple → Grounded s bound set →
      Grounded s bound (guard tuple set)) :
    Keeps v start (witnessed expr guard encoding) fun s e => e.Grounded s bound := by
  intro p e q hp he
  simp only [witnessed, returns_bind, returns_sortOf] at he
  obtain ⟨set, r, hset, sort, _, ⟨hsort, rfl⟩, sample, r', hsample, he⟩ := he
  obtain ⟨hr, hset⟩ := keeps_relation h hp hset
  obtain ⟨hr', hsample⟩ := keeps_specimen (hr.settled.encodable_sortOf hset.term hsort)
    hr.settled hsample
  have hset := hset.extend hr'.extension
  have hpr := hr.trans hr'
  have hclaim : Grounded r'.script (set.witnesses.flatMap Witness.vars ++ (sample.vars ++ bound))
      (guard sample.tuple set.term) := by
    refine hguard (hsample.2.mono (.refl _) fun x hx => by simp [hx]) ?_
    exact hset.term.mono (.refl _) (append_subset_append (List.subset_append_right _ _))
  have hcompanion : ∀ {w : IntSort} {x : DeclId} {t : Progress}, w ∈ intSorts →
      Continues v start r' t → IsDrawn t.script x → Encoded.Grounded t.script bound
        ⟨.bool true, set.witnesses ++ [⟨sample.vars ++ [x], .and (guard sample.tuple set.term)
          (.equals (w.valueOf (.ref x)) sample.tuple)⟩]⟩ := fun hw ht hx =>
    (hset.extend ht.extension).companion hw
      ⟨fun y hy => (hsample.1 y hy).extend ht.extension,
        hsample.2.extend ht.extension⟩ hx
      (hclaim.extend ht.extension)
  split at he
  · simp only [returns_bind, returns_pure] at he
    obtain ⟨x, t, hx, _, _, ⟨rfl, rfl⟩, rfl, rfl⟩ := he
    obtain ⟨ht, hx⟩ := keeps_freshVariable (encodable_intSort (w := binaryInts) (by decide))
      hr'.settled hx
    exact ⟨hpr.trans ht, hcompanion (w := binaryInts) (by decide) ht hx⟩
  split at he
  · simp only [returns_bind, returns_pure] at he
    obtain ⟨x, t, hx, _, _, ⟨rfl, rfl⟩, rfl, rfl⟩ := he
    obtain ⟨ht, hx⟩ := keeps_freshVariable (encodable_intSort (w := ternaryInts) (by decide))
      hr'.settled hx
    exact ⟨hpr.trans ht, hcompanion (w := ternaryInts) (by decide) ht hx⟩
  · simp only [returns_bind, returns_pure] at he
    obtain ⟨_, _, ⟨rfl, rfl⟩, rfl, rfl⟩ := he
    exact ⟨hpr, hset.owing hsample.1 hclaim .bool⟩

theorem keeps_emptiness {expr : String}
    (h : Keeps v start encoding fun s e => e.Grounded s bound) :
    Keeps v start (emptiness expr encoding) fun s e => e.Grounded s bound := by
  intro p e q hp he
  simp only [emptiness, returns_bind, returns_sortOf] at he
  obtain ⟨set, r, hset, sort, _, ⟨hsort, rfl⟩, he⟩ := he
  obtain ⟨hr, hset⟩ := keeps_relation h hp hset
  have hs := hr.settled.encodable_sortOf hset.term hsort
  split at he
  · rename_i hnone
    simp only [returns_bind, returns_liftTerm, returns_pure] at he
    obtain ⟨sample, _, hsample, t, _, ⟨ht, rfl⟩, rfl, rfl⟩ := he
    obtain ⟨hq, hsample⟩ := keeps_specimen hs hr.settled hsample
    have hterm := hset.term
    rw [List.isEmpty_iff.mp hnone] at hterm
    refine ⟨hr.trans hq, .plain (grounded_quantify hsample.1 ?_ ht)⟩
    exact .unary (.binary (hsample.2.mono (.refl _) (List.subset_append_left _ _))
      (hterm.mono hq.extension (List.subset_append_right _ _)) (by decide))
  · obtain ⟨rfl, rfl⟩ := returns_pure.mp he
    exact ⟨hr, hset.withTerm (.binary hset.term (.emptySet hs) (by decide))⟩

theorem keeps_unaryExpr {op : Relational.UnaryOp} {arg : Expr}
    (h : Keeps v start encoding fun s e => e.Grounded s bound) :
    Keeps v start (unaryExpr v op arg encoding) fun s e => e.Grounded s bound := by
  unfold unaryExpr
  cases op with
  | not => exact keeps_negation h
  | closure => exact keeps_binaryRelation h fun _ ht => .unary ht
  | reflexiveClosure =>
    exact keeps_binaryRelation h fun hp ht =>
      .binary (.unary ht) (.declared hp.vocabulary.iden.precedes) (by decide)
  | transpose => exact keeps_binaryRelation h fun _ ht => .unary ht
  | toInt | toSigned => exact h
  | card =>
    intro p e q _ he
    exact (not_returns_unsupported he).elim
  | no => exact keeps_emptiness h
  | some => exact keeps_witnessed h fun ht hs => .binary ht hs (by decide)
  | one => exact keeps_witnessed h fun ht hs => .binary (.unary ht) hs (by decide)
  | lone => exact keeps_witnessed h fun ht hs => .binary hs (.unary ht) (by decide)

theorem keeps_intValue {a : Expr} (hfits : ∀ n ∈ a.literals, Text.fitsSigned64 n = true)
    (h : Keeps v start encoding fun s e => e.Grounded s bound) :
    Keeps v start (intValue v a encoding) fun s e => e.Grounded s bound := by
  intro p e q hp he
  unfold intValue at he
  split at he
  · rename_i n hn
    obtain ⟨rfl, rfl⟩ := returns_pure.mp he
    exact ⟨.refl hp, .plain (.int (hfits n (Expr.literal?_mem hn)))⟩
  · simp only [returns_bind, returns_sortOf] at he
    obtain ⟨set, r, hset, sort, _, ⟨hsort, rfl⟩, he⟩ := he
    obtain ⟨hr, hset⟩ := keeps_relation h hp hset
    split at he
    · simp only [returns_bind, returns_pure] at he
      obtain ⟨x, _, hx, rfl, rfl⟩ := he
      obtain ⟨hq, hx⟩ := keeps_freshVariable (encodable_intSort (w := unaryInts) (by decide))
        hr.settled hx
      have hset := hset.extend hq.extension
      have hvalue : ∀ {bound}, x ∈ bound → Grounded q.script bound (unaryIntValue (.ref x)) :=
        fun hmem => .value (w := unaryInts) (by decide) (.bound hmem)
      refine ⟨hr.trans hq, hset.owing (List.forall_mem_singleton.mpr hx) ?_
        (.first (hvalue (by simp)))⟩
      refine .binary (.unary (hvalue (by simp))) ?_ (by decide)
      exact hset.term.mono (.refl _) (append_subset_append (List.subset_append_right _ _))
    · exact (not_returns_unsupported he).elim

theorem keeps_binaryExpr {op : Relational.BinaryOp} {a b : Expr}
    {conjuncts : List (Encoder Encoded)}
    (ha : ∀ n ∈ a.literals, Text.fitsSigned64 n = true)
    (hb : ∀ n ∈ b.literals, Text.fitsSigned64 n = true)
    (hl : Keeps v start lhs fun s e => e.Grounded s bound)
    (hr : Keeps v start rhs fun s e => e.Grounded s bound)
    (hconjuncts : ∀ e ∈ conjuncts, Keeps v start e fun s e => e.Grounded s bound) :
    Keeps v start (binaryExpr v op a b lhs rhs conjuncts) fun s e => e.Grounded s bound := by
  unfold binaryExpr
  cases op with
  | join => exact keeps_joinRelations hl hr
  | union | intersection | difference | product | equals | inside =>
    exact keeps_setOperation hl hr fun hs ht => .binary hs ht (by decide)
  | notEquals | notInside =>
    exact keeps_negation (keeps_setOperation hl hr fun hs ht => .binary hs ht (by decide))
  | and => exact keeps_conjunction hconjuncts
  | or =>
    refine keeps_disjunction fun e he => ?_
    simp only [List.mem_cons, List.not_mem_nil, or_false] at he
    rcases he with rfl | rfl
    · exact hl
    · exact hr
  | implies | iff => exact keeps_connective hl hr fun hs ht => .binary hs ht (by decide)
  | lt | le | gt | ge =>
    exact keeps_both (keeps_intValue ha hl) (keeps_intValue hb hr) fun hs ht =>
      .binary hs ht (by decide)

end Constructs

/-! ## Quantifiers -/

/-- Every name of the scope stands for a bound variable. -/
def Scope.Within (scope : Scope) (bound : List DeclId) : Prop :=
  ∀ {x : String} {id : DeclId}, scope.lookup x = some id → id ∈ bound

structure Bound.Grounded (s : Script) (bound : List DeclId) (b : Bound) : Prop where
  vars : ∀ x ∈ b.vars, IsDrawn s x
  guards : ∀ t ∈ b.guards, Encoding.Grounded s (b.vars ++ bound) t
  scope : Scope.Within b.scope (b.vars ++ bound)

theorem Bound.Grounded.extend {s t : Script} {b : Bound} (h : b.Grounded s bound)
    (hst : s.Extends t) : b.Grounded t bound where
  vars x hx := (h.vars x hx).extend hst
  guards u hu := (h.guards u hu).extend hst
  scope := h.scope

theorem bindNames_grounded {set : Term} {names : List String} {scope : Scope} {b : Bound}
    {p q : Progress} (hp : Settled v start p) (hset : Grounded p.script bound set)
    (hscope : scope.Within bound) (h : Returns (bindNames set names scope) p b q) :
    Continues v start p q ∧ b.Grounded q.script bound := by
  induction names generalizing scope bound b p with
  | nil =>
    obtain ⟨rfl, rfl⟩ := returns_pure.mp h
    exact ⟨.refl hp, nofun, nofun, hscope⟩
  | cons name names ih =>
    simp only [bindNames, returns_bind, returns_liftTerm, returns_pure] at h
    obtain ⟨x, _, hx, tuple, r, ⟨htuple, rfl⟩, rest, _, hrest, rfl, rfl⟩ := h
    obtain ⟨hr, hx⟩ := keeps_freshVariable rfl hp hx
    have hset' : Grounded r.script (x :: bound) set :=
      hset.mono hr.extension (List.subset_cons_self _ _)
    have hscope' : Scope.Within ((name, x) :: scope) (x :: bound) := by
      intro y id hy
      rw [List.lookup_cons] at hy
      split at hy
      · rw [Option.some.injEq] at hy
        simp [hy]
      · exact List.mem_cons_of_mem _ (hscope hy)
    obtain ⟨hq, hrest⟩ := ih hr.settled hset' hscope' hrest
    have hsub : rest.vars ++ x :: bound ⊆ (x :: rest.vars) ++ bound := fun y hy => by
      simp only [List.mem_append, List.mem_cons] at hy ⊢
      tauto
    refine ⟨hr.trans hq, List.forall_mem_cons.mpr ⟨hx.extend hq.extension, hrest.vars⟩,
      List.forall_mem_cons.mpr ⟨?_, fun t ht => (hrest.guards t ht).mono (.refl _) hsub⟩,
      fun hy => hsub (hrest.scope hy)⟩
    refine .binary (grounded_mkTuple_ref (by simp) htuple) ?_ (by decide)
    exact hset'.mono hq.extension fun y hy => hsub (List.mem_append_right _ hy)

theorem keeps_boundSet {expr : String} {encoding : Encoder Encoded}
    (h : Keeps v start encoding fun s e => e.Grounded s bound) :
    Keeps v start (boundSet expr encoding) fun s t => Grounded s bound t := by
  intro p t q hp ht
  simp only [boundSet, returns_bind, returns_sortOf] at ht
  obtain ⟨set, r, hset, sort, _, ⟨_, rfl⟩, ht⟩ := ht
  obtain ⟨hr, hset⟩ := keeps_relation h hp hset
  split at ht
  · rename_i hplain
    rw [Bool.and_eq_true] at hplain
    obtain ⟨rfl, rfl⟩ := returns_pure.mp ht
    have hterm := hset.term
    rw [List.isEmpty_iff.mp hplain.1] at hterm
    exact ⟨hr, hterm⟩
  · exact (not_returns_unsupported ht).elim

/-- Variables that are equal one by one. -/
theorem grounded_same {s : Script} {xs ys : List DeclId} (hxs : xs ⊆ bound) (hys : ys ⊆ bound) :
    Grounded s bound (.conj (List.zipWith (fun x y => .equals (.ref x) (.ref y)) xs ys)) := by
  refine grounded_conj fun t ht => ?_
  obtain ⟨i, hi, rfl⟩ := List.getElem_of_mem ht
  rw [List.getElem_zipWith]
  exact .binary (.bound (hxs (List.getElem_mem _))) (.bound (hys (List.getElem_mem _))) (by decide)

section Bound

variable {s : Script} {xs ys : Bound} {t u : Term}

theorem grounded_forAll (hxs : xs.Grounded s bound) (ht : Grounded s (xs.vars ++ bound) t)
    (hu : Term.forAll xs.vars (.implies (.conj xs.guards) t) = .ok u) : Grounded s bound u :=
  grounded_quantify hxs.vars (.binary (grounded_conj hxs.guards) ht (by decide)) hu

/-- The second variables of a unique choice, within the first ones. -/
theorem grounded_unique (hys : ys.Grounded s bound) (ht : Grounded s (ys.vars ++ bound) t)
    (hu : Term.forAll ys.vars (.implies (conjNontrivial (ys.guards ++ [t]))
      (.conj (List.zipWith (fun y x => .equals (.ref y) (.ref x)) ys.vars xs.vars))) = .ok u) :
    Grounded s (xs.vars ++ bound) u := by
  have hinner : ys.vars ++ bound ⊆ ys.vars ++ (xs.vars ++ bound) :=
    append_subset_append (List.subset_append_right _ _)
  refine grounded_quantify hys.vars (.binary ?_ (grounded_same ?_ ?_) (by decide)) hu
  · refine grounded_conjNontrivial (List.forall_mem_append.mpr ⟨fun g hg => ?_, ?_⟩)
    · exact (hys.guards g hg).mono (.refl s) hinner
    · exact List.forall_mem_singleton.mpr (ht.mono (.refl s) hinner)
  · exact List.subset_append_left _ _
  · exact fun x hx => by simp [hx]

theorem grounded_atMostOne (hxs : xs.Grounded s bound) (hys : ys.Grounded s bound)
    {first second : Term} (hfirst : Grounded s (xs.vars ++ bound) first)
    (hsecond : Grounded s (ys.vars ++ bound) second)
    (hu : Term.forAll (xs.vars ++ ys.vars)
      (.implies (conjNontrivial (xs.guards ++ [first] ++ ys.guards ++ [second]))
        (.conj (List.zipWith (fun x y => .equals (.ref x) (.ref y)) xs.vars ys.vars))) = .ok u) :
    Grounded s bound u := by
  have hleft : xs.vars ++ bound ⊆ (xs.vars ++ ys.vars) ++ bound := fun x hx => by
    simp only [List.mem_append] at hx ⊢
    tauto
  have hright : ys.vars ++ bound ⊆ (xs.vars ++ ys.vars) ++ bound := by simp
  refine grounded_quantify (List.forall_mem_append.mpr ⟨hxs.vars, hys.vars⟩)
    (.binary (grounded_conjNontrivial fun a ha => ?_) (grounded_same ?_ ?_) (by decide)) hu
  · simp only [List.mem_append, List.mem_singleton] at ha
    rcases ha with ((ha | rfl) | ha) | rfl
    · exact (hxs.guards a ha).mono (.refl s) hleft
    · exact hfirst.mono (.refl s) hleft
    · exact (hys.guards a ha).mono (.refl s) hright
    · exact hsecond.mono (.refl s) hright
  · exact fun x hx => by simp [hx]
  · exact fun x hx => by simp [hx]

/-- What holds of some values of the variables. -/
theorem grounded_exists {e : Encoded} (hxs : xs.Grounded s bound)
    (he : e.Grounded s (xs.vars ++ bound)) :
    Encoded.Grounded s bound ⟨e.term, ⟨xs.vars, .conj xs.guards⟩ :: e.witnesses⟩ :=
  he.within (w := ⟨xs.vars, .conj xs.guards⟩) hxs.vars (grounded_conj hxs.guards)

end Bound

theorem keeps_quantify {quantifier : Relational.Quantifier} {bind : Encoder Bound}
    {body : Scope → Encoder Encoded} (hbind : Keeps v start bind fun s b => b.Grounded s bound)
    (hbody : ∀ {scope bound}, scope.Within bound →
      Keeps v start (body scope) fun s e => e.Grounded s bound) :
    Keeps v start (quantify quantifier bind body) fun s e => e.Grounded s bound := by
  intro p e q hp he
  obtain ⟨xs, r, hxs, he⟩ := returns_bind.mp he
  obtain ⟨hr, hxs⟩ := hbind hp hxs
  have hholds := hbody hxs.scope
  cases quantifier with
  | all =>
    simp only [returns_bind, returns_liftTerm, returns_pure] at he
    obtain ⟨t, _, ht, u, _, ⟨hu, rfl⟩, rfl, rfl⟩ := he
    obtain ⟨hq, ht⟩ := keeps_formula hholds hr.settled ht
    exact ⟨hr.trans hq, .plain (grounded_forAll (hxs.extend hq.extension) ht hu)⟩
  | no =>
    simp only [returns_bind, returns_liftTerm, returns_pure] at he
    obtain ⟨t, _, ht, u, _, ⟨hu, rfl⟩, rfl, rfl⟩ := he
    obtain ⟨hq, ht⟩ := keeps_formula hholds hr.settled ht
    exact ⟨hr.trans hq, .plain (grounded_forAll (hxs.extend hq.extension) (.unary ht) hu)⟩
  | some =>
    simp only [returns_bind, returns_pure] at he
    obtain ⟨t, _, ht, rfl, rfl⟩ := he
    obtain ⟨hq, ht⟩ := hholds hr.settled ht
    exact ⟨hr.trans hq, grounded_exists (hxs.extend hq.extension) ht⟩
  | one =>
    simp only [returns_bind, returns_liftTerm, returns_pure] at he
    obtain ⟨t, r₁, ht, ys, r₂, hys, again, _, hagain, u, _, ⟨hu, rfl⟩, rfl, rfl⟩ := he
    obtain ⟨hr₁, ht⟩ := hholds hr.settled ht
    obtain ⟨hr₂, hys⟩ := hbind hr₁.settled hys
    obtain ⟨hq, hagain⟩ := keeps_formula (hbody hys.scope) hr₂.settled hagain
    have hrest := hr₂.trans hq
    have hxs := hxs.extend (hr₁.trans hrest).extension
    have ht := ht.extend hrest.extension
    have hunique := grounded_unique (hys.extend hq.extension) hagain hu
    refine ⟨hr.trans (hr₁.trans hrest), grounded_exists hxs (ht.withTerm (grounded_conjNontrivial
      (List.forall_mem_cons.mpr ⟨ht.term, List.forall_mem_singleton.mpr ?_⟩)))⟩
    exact hunique.mono (.refl _) (List.subset_append_right _ _)
  | lone =>
    simp only [returns_bind, returns_liftTerm, returns_pure] at he
    obtain ⟨t, r₁, ht, ys, r₂, hys, again, _, hagain, u, _, ⟨hu, rfl⟩, rfl, rfl⟩ := he
    obtain ⟨hr₁, ht⟩ := keeps_formula hholds hr.settled ht
    obtain ⟨hr₂, hys⟩ := hbind hr₁.settled hys
    obtain ⟨hq, hagain⟩ := keeps_formula (hbody hys.scope) hr₂.settled hagain
    have hrest := hr₂.trans hq
    have hxs := hxs.extend (hr₁.trans hrest).extension
    exact ⟨hr.trans (hr₁.trans hrest), .plain (grounded_atMostOne hxs (hys.extend hq.extension)
      (ht.extend hrest.extension) hagain hu)⟩

/-! ## Cardinalities -/

theorem keeps_freshElements {sort : TermSort} (hs : sort.encodable = true) (n : Nat) :
    Keeps v start (freshElements sort n) fun s ts => ∀ t ∈ ts, Grounded s [] t := by
  induction n with
  | zero =>
    intro p ts q hp h
    obtain ⟨rfl, rfl⟩ := returns_pure.mp h
    exact ⟨.refl hp, nofun⟩
  | succ n ih =>
    intro p ts q hp h
    simp only [freshElements, returns_bind, returns_pure] at h
    obtain ⟨x, r, hx, ts', _, hts, rfl, rfl⟩ := h
    obtain ⟨hr, hx⟩ := keeps_freshElement hs hp hx
    obtain ⟨hq, hts⟩ := ih hr.settled hts
    refine ⟨hr.trans hq, List.forall_mem_cons.mpr ⟨?_, hts⟩⟩
    exact .declared (hq.extension.precedes (Nat.le_refl 0) hx)

theorem keeps_enumerate {n : Nat} {element set : TermSort} {pairwise : Bool}
    (he : element.encodable = true) (hs : set.encodable = true) :
    Keeps v start (enumerate n element set pairwise) fun s t => Grounded s [] t := by
  intro p t q hp h
  obtain ⟨_, elements, r, r', helements, hdistinct, h⟩ := returns_enumerate.mp h
  obtain ⟨hr, helements⟩ := keeps_freshElements he n hp helements
  have hr' : Continues v start r r' := by
    rcases returns_distinguish hdistinct with rfl | ⟨d, hd, hassert⟩
    · exact .refl hr.settled
    · exact hr.settled.assertTerm (grounded_distinct helements hd) hassert
  obtain ⟨x, r₁, union, hx, hunion, rfl, hassert⟩ := returns_gather.mp h
  obtain ⟨hr₁, hx⟩ := keeps_freshSet hs hr'.settled hx
  have hgrounded : Grounded r₁.script [] (.equals (.ref x) union) := by
    refine .binary (.declared hx) (grounded_unionAll (fun a ha => ?_) hunion) (by decide)
    obtain ⟨u, hu, rfl⟩ := List.mem_map.mp ha
    exact .unary ((helements u hu).extend (hr'.trans hr₁).extension)
  have hq := hr₁.settled.assertTerm hgrounded hassert
  refine ⟨hr.trans (hr'.trans (hr₁.trans hq)), ?_⟩
  exact .declared (hq.extension.precedes (Nat.le_refl 0) hx)

theorem encodeBound_grounded {set t : Term} {sort element : TermSort} {b : CountBound}
    {p q : Progress} (hp : Settled v start p) (hset : Grounded p.script bound set)
    (hs : sort.encodable = true) (he : element.encodable = true)
    (h : Returns (encodeBound set sort element b) p t q) :
    Continues v start p q ∧ Grounded q.script bound t := by
  have henumerate : ∀ {n pairwise u r}, Returns (enumerate n element sort pairwise) p u r →
      Continues v start p r ∧ Grounded r.script bound set ∧ Grounded r.script bound u := by
    intro n pairwise u r hu
    obtain ⟨hr, hu⟩ := keeps_enumerate he hs hp hu
    exact ⟨hr, hset.extend hr.extension, hu.mono (.refl _) (List.nil_subset _)⟩
  cases putsBound_of_returns h with
  | decided => exact ⟨.refl hp, .bool⟩
  | empty => exact ⟨.refl hp, .binary hset (.emptySet hs) (by decide)⟩
  | equal h | below h =>
    obtain ⟨hq, hset, hu⟩ := henumerate h
    exact ⟨hq, .binary hset hu (by decide)⟩
  | above h =>
    obtain ⟨hq, hset, hu⟩ := henumerate h
    exact ⟨hq, .binary hu hset (by decide)⟩

theorem keeps_countComparison {expr : String} {position : Position} {c : Comparison} {k : Int}
    {set : Encoder Encoded} (h : Keeps v start set fun s e => e.Grounded s bound) :
    Keeps v start (countComparison expr position c k set) fun s e => e.Grounded s bound := by
  intro p e q hp he
  obtain ⟨_, _, set, r, element, t, _, hset, hsort, ht, rfl⟩ := returns_countComparison.mp he
  obtain ⟨hr, hset⟩ := h hp hset
  have hs := hr.settled.encodable_sortOf hset.term hsort
  obtain ⟨hq, ht⟩ := encodeBound_grounded hr.settled hset.term hs (encodable_set.mp hs).2 ht
  exact ⟨hr.trans hq, (hset.extend hq.extension).withTerm ht⟩

theorem keeps_cardinality {expr : String} {position : Position} {c : Comparison}
    {lhs rhs : Option (Encoder Encoded)} {k l : Option Int}
    (hl : ∀ set, lhs = some set → Keeps v start set fun s e => e.Grounded s bound)
    (hr : ∀ set, rhs = some set → Keeps v start set fun s e => e.Grounded s bound) :
    Keeps v start (cardinality expr position c lhs rhs k l) fun s e => e.Grounded s bound := by
  unfold cardinality
  split
  · exact keeps_countComparison (hl _ rfl)
  split
  · exact keeps_countComparison (hr _ rfl)
  · intro p e q _ he
    exact (not_returns_unsupported he).elim

/-! ## Expressions -/

mutual
theorem keeps_encode : ∀ {e : Expr} {scope : Scope} {position : Position} {bound : List DeclId},
    (∀ n ∈ e.literals, Text.fitsSigned64 n = true) → scope.Within bound →
      Keeps v start (encode v e scope position) fun s r => r.Grounded s bound
  | .sig id, scope, position, bound, _, _ => by
    intro p r q hp h
    simp only [encode, returns_bind, returns_pure] at h
    obtain ⟨t, _, ht, rfl, rfl⟩ := h
    obtain ⟨hq, ht⟩ := keeps_sigRelation id hp ht
    exact ⟨hq, .plain ht⟩
  | .field id, scope, position, bound, _, _ => by
    intro p r q hp h
    simp only [encode, returns_bind, returns_pure] at h
    obtain ⟨t, _, ht, rfl, rfl⟩ := h
    obtain ⟨hq, ht⟩ := keeps_fieldRelation id hp ht
    exact ⟨hq, .plain ht⟩
  | .builtin b, scope, position, bound, _, _ => by
    intro p r q hp h
    simp only [encode, returns_bind, returns_pure] at h
    obtain ⟨t, _, ht, rfl, rfl⟩ := h
    obtain ⟨hq, ht⟩ := keeps_builtinRelation b hp ht
    exact ⟨hq, .plain ht⟩
  | .var name, scope, position, bound, _, hscope => by
    intro p r q hp h
    rw [encode] at h
    split at h
    · rename_i id hid
      obtain ⟨rfl, rfl⟩ := returns_pure.mp h
      exact ⟨.refl hp, .plain (.bound (hscope hid))⟩
    · exact (not_returns_throw h).elim
  | .int n, scope, position, bound, hfits, _ => by
    intro p r q hp h
    simp only [encode, returns_bind, returns_liftTerm, returns_pure] at h
    obtain ⟨t, _, ⟨ht, rfl⟩, rfl, rfl⟩ := h
    refine ⟨.refl hp, .plain (.unary (grounded_mkTuple (List.forall_mem_singleton.mpr ?_) ht))⟩
    exact .int (hfits n (List.mem_singleton.mpr rfl))
  | .unary op e, scope, position, bound, hfits, hscope => by
    rw [encode]
    exact keeps_unaryExpr (keeps_encode hfits hscope)
  | .binary op a b, scope, position, bound, hfits, hscope => by
    rw [Expr.literals, List.forall_mem_append] at hfits
    have hplain : Keeps v start (binaryExpr v op a b (encode v a scope .nested)
        (encode v b scope .nested) [encode v a scope position, encode v b scope position])
        fun s r => r.Grounded s bound := by
      refine keeps_binaryExpr hfits.1 hfits.2 (keeps_encode hfits.1 hscope)
        (keeps_encode hfits.2 hscope) fun e he => ?_
      simp only [List.mem_cons, List.not_mem_nil, or_false] at he
      rcases he with rfl | rfl
      · exact keeps_encode hfits.1 hscope
      · exact keeps_encode hfits.2 hscope
    rw [encode]
    split
    · exact hplain
    · dsimp only
      split
      · exact keeps_cardinality (fun _ h => keeps_encodeCounted hfits.1 hscope h)
          fun _ h => keeps_encodeCounted hfits.2 hscope h
      · exact hplain
  | .list .and es, scope, position, bound, hfits, hscope => by
    rw [encode]
    exact keeps_conjunction (keeps_encodeAll hfits hscope)
  | .list .or es, scope, position, bound, hfits, hscope => by
    rw [encode]
    exact keeps_disjunction (keeps_encodeAll hfits hscope)
  | .quantified quantifier bs body, scope, position, bound, hfits, hscope => by
    rw [Expr.literals, List.forall_mem_append] at hfits
    rw [encode]
    exact keeps_quantify (keeps_encodeBindings hfits.1 hscope) fun hinner =>
      keeps_encode hfits.2 hinner

theorem keeps_encodeCounted : ∀ {e : Expr} {scope : Scope} {bound : List DeclId}
    {set : Encoder Encoded}, (∀ n ∈ e.literals, Text.fitsSigned64 n = true) →
      scope.Within bound → encodeCounted v e scope = some set →
      Keeps v start set fun s r => r.Grounded s bound
  | .unary op e, scope, bound, set, hfits, hscope, h => by
    cases op with
    | toInt | toSigned =>
      rw [encodeCounted] at h
      exact keeps_encodeCounted (e := e) hfits hscope h
    | card =>
      rw [encodeCounted] at h
      obtain rfl := Option.some.inj h
      exact keeps_relation (keeps_encode (e := e) hfits hscope)
    | _ => simp [encodeCounted] at h
  | .sig _, _, _, _, _, _, h | .field _, _, _, _, _, _, h | .builtin _, _, _, _, _, _, h
  | .var _, _, _, _, _, _, h | .int _, _, _, _, _, _, h | .binary .., _, _, _, _, _, h
  | .list .., _, _, _, _, _, h | .quantified .., _, _, _, _, _, h => by
    simp [encodeCounted] at h

theorem keeps_encodeAll : ∀ {es : List Expr} {scope : Scope} {position : Position}
    {bound : List DeclId}, (∀ n ∈ literalsAll es, Text.fitsSigned64 n = true) →
      scope.Within bound → ∀ r ∈ encodeAll v es scope position,
        Keeps v start r fun s r => r.Grounded s bound
  | [], _, _, _, _, _ => by
    rw [encodeAll]
    exact nofun
  | e :: es, scope, position, bound, hfits, hscope => by
    rw [literalsAll, List.forall_mem_append] at hfits
    rw [encodeAll]
    exact List.forall_mem_cons.mpr ⟨keeps_encode hfits.1 hscope, keeps_encodeAll hfits.2 hscope⟩

theorem keeps_encodeBindings : ∀ {bs : List (Binding Expr)} {scope : Scope}
    {bound : List DeclId}, (∀ n ∈ literalsBound bs, Text.fitsSigned64 n = true) →
      scope.Within bound → Keeps v start (encodeBindings v bs scope) fun s b => b.Grounded s bound
  | [], scope, bound, _, hscope => by
    intro p b q hp h
    rw [encodeBindings] at h
    obtain ⟨rfl, rfl⟩ := returns_pure.mp h
    exact ⟨.refl hp, nofun, nofun, hscope⟩
  | group :: bs, scope, bound, hfits, hscope => by
    intro p b q hp h
    rw [literalsBound, List.forall_mem_append] at hfits
    simp only [encodeBindings, returns_bind, returns_pure] at h
    obtain ⟨set, r, hset, first, r', hfirst, rest, _, hrest, rfl, rfl⟩ := h
    obtain ⟨hr, hset⟩ := keeps_boundSet (keeps_encode hfits.1 hscope) hp hset
    obtain ⟨hr', hfirst⟩ := bindNames_grounded hr.settled hset hscope hfirst
    obtain ⟨hq, hrest⟩ := keeps_encodeBindings hfits.2 hfirst.scope hr'.settled hrest
    have hfirst := hfirst.extend hq.extension
    have hsub : rest.vars ++ (first.vars ++ bound) ⊆ (first.vars ++ rest.vars) ++ bound :=
      fun x hx => by
        simp only [List.mem_append] at hx ⊢
        tauto
    refine ⟨hr.trans (hr'.trans hq), List.forall_mem_append.mpr ⟨hfirst.vars, hrest.vars⟩,
      List.forall_mem_append.mpr ⟨fun t ht => ?_, fun t ht => ?_⟩, fun hx => hsub (hrest.scope hx)⟩
    · exact (hfirst.guards t ht).mono (.refl _) fun x hx => hsub (List.mem_append_right _ hx)
    · exact (hrest.guards t ht).mono (.refl _) hsub
end

end TupleLogic.Encoding
