import TupleLogic.Proofs.EncodingSteps
import TupleLogic.Proofs.Realization
import TupleLogic.Proofs.TypedFacts

/-! Cardinalities are encoded exactly. A comparison of a cardinality with a number
is rejected if too many elements had to be enumerated, and only then. Otherwise it
declares constants and a set of its own, and these can be given values such that
the encoding holds exactly where the comparison does. Comparisons that are encoded
one after the other own different declarations, so their values are chosen one
after the other as well: a later choice changes nothing that an earlier one is
about. -/

namespace TupleLogic.Encoding

open Relational Encoder
open NameSupply (elementName setName)

/-! ## Runs that are rejected -/

/-- The run ends at something that is not supported. -/
def Rejects {α : Type} (m : Encoder α) (p : Progress) : Prop :=
  ∃ cause q, m.run.run p = (.error (.unsupported cause), q)

section Rejects

variable {α β : Type} {p q : Progress}

theorem rejects_unsupported (cause : Unsupported) : Rejects (unsupported cause : Encoder α) p :=
  ⟨cause, p, rfl⟩

theorem not_rejects_pure (a : α) : ¬ Rejects (pure a) p := by
  rintro ⟨_, _, h⟩
  cases h

theorem rejects_of_error {m : Encoder α} {e : EncodeError} (h : m.run.run p = (.error e, q)) :
    Rejects m p ↔ ∃ cause, e = .unsupported cause := by
  constructor
  · rintro ⟨cause, r, hr⟩
    rw [h] at hr
    cases hr
    exact ⟨cause, rfl⟩
  · rintro ⟨cause, rfl⟩
    exact ⟨cause, q, h⟩

theorem rejects_bind_of_returns {m : Encoder α} {a : α} (h : Returns m p a q)
    (f : α → Encoder β) : Rejects (m >>= f) p ↔ Rejects (f a) q := by
  rw [Rejects, run_bind_ok h]
  rfl

theorem rejects_bind {m : Encoder α} {f : α → Encoder β} :
    Rejects (m >>= f) p ↔ Rejects m p ∨ ∃ a q, Returns m p a q ∧ Rejects (f a) q := by
  cases hrun : m.run.run p with
  | mk result q =>
    cases result with
    | error e =>
      have hnone : ¬ ∃ a q, Returns m p a q ∧ Rejects (f a) q := by
        rintro ⟨a, r, h, _⟩
        rw [Returns, hrun] at h
        cases h
      rw [or_iff_left hnone, rejects_of_error hrun, rejects_of_error (run_bind_error hrun f)]
    | ok a =>
      rw [rejects_bind_of_returns hrun]
      constructor
      · exact fun h => .inr ⟨a, q, hrun, h⟩
      · rintro (⟨_, _, h⟩ | ⟨b, r, h, hr⟩)
        · rw [hrun] at h
          cases h
        · rw [Returns, hrun] at h
          cases h
          exact hr

theorem not_rejects_liftTerm (r : Except TermError α) : ¬ Rejects (liftTerm r) p := by
  cases r with
  | ok a => exact not_rejects_pure a
  | error e =>
    rintro ⟨_, _, h⟩
    cases h

theorem not_rejects_assertTerm (name : Option String) (t : Term) :
    ¬ Rejects (assertTerm name t) p := by
  rintro ⟨_, _, h⟩
  cases h

/-- A name that is taken is no reason to reject. -/
theorem not_rejects_freshElement (sort : TermSort) : ¬ Rejects (freshElement sort) p := by
  rintro ⟨_, _, h⟩
  cases hfree : p.script.lookup p.names.freshElement.1 with
  | none =>
    rw [run_freshElement hfree] at h
    cases h
  | some id =>
    rw [run_freshElement_taken hfree] at h
    cases h

theorem not_rejects_freshSet (sort : TermSort) : ¬ Rejects (freshSet sort) p := by
  rintro ⟨_, _, h⟩
  cases hfree : p.script.lookup p.names.freshSet.1 with
  | none =>
    rw [run_freshSet hfree] at h
    cases h
  | some id =>
    rw [run_freshSet_taken hfree] at h
    cases h

theorem not_rejects_freshElements (sort : TermSort) (n : Nat) :
    ¬ Rejects (freshElements sort n) p := by
  induction n generalizing p with
  | zero => exact not_rejects_pure _
  | succ n ih =>
    simp only [freshElements, rejects_bind, not_rejects_freshElement, ih, not_rejects_pure, and_false,
      exists_false, or_self, not_false_iff]

theorem not_rejects_distinguish (pairwise : Bool) (ts : List Term) :
    ¬ Rejects (distinguish pairwise ts) p := by
  unfold distinguish
  split
  · simp only [rejects_bind, not_rejects_liftTerm, not_rejects_assertTerm, and_false, exists_false,
      or_self, not_false_iff]
  · exact not_rejects_pure _

theorem not_rejects_gather (set : TermSort) (ts : List Term) : ¬ Rejects (gather set ts) p := by
  simp only [gather, rejects_bind, not_rejects_freshSet, not_rejects_liftTerm,
    not_rejects_assertTerm, not_rejects_pure, and_false, exists_false, or_self, not_false_iff]

theorem rejects_enumerate {n : Nat} {element set : TermSort} {pairwise : Bool} :
    Rejects (enumerate n element set pairwise) p ↔ maxEnumerated < n := by
  rw [enumerate_eq]
  split
  · rename_i hmany
    exact iff_of_true (rejects_unsupported _) hmany
  · rename_i hfew
    refine iff_of_false ?_ hfew
    simp only [rejects_bind, not_rejects_freshElements, not_rejects_distinguish, not_rejects_gather,
      and_false, exists_false, or_self, not_false_iff]

theorem rejects_encodeBound {set : Term} {sort element : TermSort} {bound : CountBound} :
    Rejects (encodeBound set sort element bound) p ↔ ∃ n ∈ bound.costs, maxEnumerated < n := by
  have hcompared (build : Term → Term) (n : Nat) (pairwise : Bool) :
      Rejects (enumerate n element sort pairwise >>= fun t => pure (build t)) p ↔
        ∃ k ∈ [n], maxEnumerated < k := by
    simp only [rejects_bind, rejects_enumerate, not_rejects_pure, and_false, exists_false, or_false,
      List.mem_singleton, exists_eq_left]
  have hnone {t : Term} : Rejects (pure t) p ↔ ∃ n ∈ ([] : List Nat), maxEnumerated < n :=
    iff_of_false (not_rejects_pure t) (by simp)
  cases bound with
  | beyond => exact hnone
  | exactly k | atMost k =>
    dsimp only [encodeBound, CountBound.costs]
    by_cases hneg : k < 0
    · rw [if_pos hneg, if_neg (by omega)]
      exact hnone
    · by_cases hzero : k = 0
      · rw [if_neg hneg, if_pos hzero, if_neg (by omega)]
        exact hnone
      · rw [if_neg hneg, if_neg hzero, if_pos (by omega)]
        exact hcompared _ _ _
  | atLeast k =>
    dsimp only [encodeBound, CountBound.costs]
    by_cases hpos : k ≤ 0
    · rw [if_pos hpos, if_neg (by omega)]
      exact hnone
    · rw [if_neg hpos, if_pos (by omega)]
      exact hcompared (fun t => .subset t set) _ _

theorem rejects_countComparison {v : Vocabulary} {expr : String} {c : Comparison} {k : Int}
    {bound : CountBound} {encoding : Encoder Encoded} {cs : List ColumnType}
    (hbound : CountBound.ofComparison? c k = some bound) (h : YieldsRelation v [] encoding cs)
    (hv : Declared v p.script) :
    Rejects (countComparison expr .top c k (relation encoding)) p ↔
      ∃ n ∈ bound.costs, maxEnumerated < n := by
  obtain ⟨set, hset, hsort⟩ := h.relation hv (bindsAtoms_nil _)
  unfold countComparison
  rw [hbound]
  dsimp only
  rw [if_pos rfl, rejects_bind_of_returns hset,
    rejects_bind_of_returns (returns_sortOf.mpr ⟨hsort.sortOf, rfl⟩)]
  change Rejects (encodeBound set (relationSort cs) (.tuple (cs.map ColumnType.sort)) bound >>=
    fun t => pure (⟨t, []⟩ : Encoded)) p ↔ _
  simp only [rejects_bind, rejects_encodeBound, not_rejects_pure, and_false, exists_false, or_false]

end Rejects

/-! ## Comparisons of a cardinality with a number -/

/-- Below casts, one side is the cardinality of `x` and the other the literal `k`;
seen from the cardinality, they are compared by `c`. -/
inductive ComparesCount (x : Expr) (k : Int) : Comparison → Expr → Prop where
  | left {op : Relational.BinaryOp} {c : Comparison} {a b : Expr} : op.comparison? = some c →
      a.cardinal? = some x → b.literal? = some k → ComparesCount x k c (.binary op a b)
  | right {op : Relational.BinaryOp} {c : Comparison} {a b : Expr} : op.comparison? = some c →
      a.literal? = some k → b.cardinal? = some x → ComparesCount x k c.swapped (.binary op a b)

/-- How many elements a comparison of a cardinality with `k` enumerates. -/
def enumeratedBy (c : Comparison) (k : Int) : Int :=
  match c with
  | .lt => k - 1
  | .gt => k + 1
  | .eq | .ne | .le | .ge => k

/-- More elements than are enumerated, but a number of 64 bits. -/
def TooMany (c : Comparison) (k : Int) : Prop :=
  65536 < enumeratedBy c k ∧ Text.fitsSigned64 (enumeratedBy c k) = true

section Comparisons

variable {v : Vocabulary} {x e : Expr} {c : Comparison} {k : Int} {bound : CountBound}

theorem cardinal?_of_literal? (h : e.literal? = some k) : e.cardinal? = none :=
  cardinal?_of_counts (Expr.counts_of_literal? h)

theorem ofComparison?_of_ne (hc : c ≠ .ne) : ∃ bound, CountBound.ofComparison? c k = some bound := by
  cases c with
  | ne => exact absurd rfl hc
  | _ => exact ⟨_, rfl⟩

theorem tooMany_iff (hk : Text.fitsSigned64 k = true)
    (hbound : CountBound.ofComparison? c k = some bound) :
    (∃ n ∈ bound.costs, maxEnumerated < n) ↔ TooMany c k := by
  have hcost (j : Int) : (∃ n ∈ if 0 < j then [j.toNat] else [], maxEnumerated < n) ↔ 65536 < j := by
    split
    · simp only [List.mem_singleton, exists_eq_left, maxEnumerated]
      omega
    · simp only [List.not_mem_nil, false_and, exists_false, false_iff]
      omega
  cases c with
  | ne => cases hbound
  | eq | le | ge =>
    cases hbound
    exact (hcost k).trans (iff_self_and.mpr fun _ => hk)
  | lt =>
    cases hbound
    have hfits (hmany : 65536 < k - 1) : Text.fitsSigned64 (k - 1) = true := by
      simp only [Text.fitsSigned64, Bool.and_eq_true, decide_eq_true_eq] at hk ⊢
      omega
    exact (hcost (k - 1)).trans (iff_self_and.mpr hfits)
  | gt =>
    simp only [CountBound.ofComparison?, Option.some.injEq] at hbound
    split at hbound
    · rename_i hfits
      subst hbound
      exact (hcost (k + 1)).trans (iff_self_and.mpr fun _ => hfits)
    · rename_i hfits
      subst hbound
      exact iff_of_false (by simp [CountBound.costs]) fun h => hfits h.2

/-- Such a comparison is encoded as the bound that it is. -/
theorem ComparesCount.encode_eq (h : ComparesCount x k c e) (scope : Scope) (pos : Position) :
    encode v e scope pos = countComparison (v.model.render e) pos c k
      (relation (encode v x scope .nested)) := by
  cases h with
  | left hop hx hk =>
    rw [encode]
    simp [hop, encodeCounted_eq, hx, hk, cardinality]
  | right hop hk hx =>
    rw [encode]
    simp [hop, encodeCounted_eq, cardinal?_of_literal? hk, hx, hk, cardinality]

theorem ComparesCount.enumerations_eq (h : ComparesCount x k c e)
    (hbound : CountBound.ofComparison? c k = some bound) : e.enumerations = bound.costs := by
  cases h with
  | @left op _ a b hop hx hk =>
    have hand : op ≠ .and := by
      rintro rfl
      cases hop
    simp [Expr.enumerations, hand, countBound?, hop, hx, hk, hbound]
  | @right op _ a b hop hk hx =>
    have hand : op ≠ .and := by
      rintro rfl
      cases hop
    simp [Expr.enumerations, hand, countBound?, hop, cardinal?_of_literal? hk, hx, hk, hbound]

end Comparisons

/-! ## Values for what comparisons declare -/

/-- A comparison of a cardinality with a number of 64 bits that has been encoded
at the top of a fact. -/
structure CountRun (v : Vocabulary) where
  fact : Expr
  counted : Expr
  columns : List ColumnType
  comparison : Comparison
  number : Int
  before : Progress
  result : Encoded
  after : Progress
  compares : ComparesCount counted number comparison fact
  fits : Text.fitsSigned64 number = true
  typed : HasColumns v.model counted columns
  returns : Returns (encode v fact [] .top) before result after

namespace CountRun

variable {v : Vocabulary} (run : CountRun v)

/-- What the encoding has asserted on the way. -/
def added : List Assertion :=
  run.after.script.assertions.drop run.before.script.assertions.length

/-- The encoding has declared it. -/
def Owns (id : DeclId) : Prop :=
  run.before.script.arena.size ≤ id.index ∧ id.index < run.after.script.arena.size

/-- What the comparison is about can be counted: it is not larger than a number of
64 bits can say, and tuples of its columns exist. -/
structure Counts {E α : Type} (M : Structure E) (I : Instance α) : Prop where
  finite : (I.denote [] run.counted).Finite
  fits : (I.denote [] run.counted).ncard ≤ 9223372036854775807
  inhabited : (M.full (relationSort run.columns)).Nonempty

/-- The comparison itself. -/
def Holds {α : Type} (I : Instance α) : Prop :=
  Relates run.comparison (I.denote [] run.counted).ncard run.number

/-- The structure has values for what the encoding has declared such that all that
it has asserted holds, and the encoding as well. -/
structure Satisfied {E : Type} (f : Script) (N : Structure E) : Prop where
  sorted : N.SortedOn f run.before.script.arena.size run.after.script.arena.size
  assertions : N.Models f run.added
  formula : run.result.term.Holds f N

theorem encodesCount (hv : Declared v run.before.script) :
    ∃ bound, (∀ n : Nat, bound.Admits n ↔ Relates run.comparison n run.number) ∧
      EncodesCount v run.counted run.columns bound run.before run.result.term run.after run.added := by
  have hreturns := run.returns
  rw [run.compares.encode_eq] at hreturns
  obtain ⟨bound, new, hbound, _, h⟩ := encodesCount_returns run.typed hv hreturns
  have hadded : run.added = new := by
    rw [added, h.assertions, List.drop_left]
  exact ⟨bound, admits_ofComparison run.fits hbound, hadded ▸ h⟩

end CountRun

/-- The structures differ at most in what the comparisons have declared. -/
def AgreesBesides {E : Type} {v : Vocabulary} (runs : List (CountRun v)) (M N : Structure E) : Prop :=
  M.carrier = N.carrier ∧ ∀ id, (∀ run ∈ runs, ¬ run.Owns id) → M.meaning id = N.meaning id

section Runs

variable {v : Vocabulary} {s f : Script} {α E : Type} {ι : α → E} {I : Instance α}
  {M N : Structure E} {run : CountRun v} {runs : List (CountRun v)}

/-- What comes before all comparisons is the same. -/
theorem AgreesBesides.agrees (h : AgreesBesides runs M N)
    (hruns : ∀ run ∈ runs, s.Extends run.before.script) : M.Agrees s.arena.size N := by
  refine ⟨h.1, fun id hid => h.2 id fun run hrun howns => ?_⟩
  have := (hruns run hrun).size_le
  have := howns.1
  omega

/-- Later comparisons leave alone what an earlier one owns. -/
theorem AgreesBesides.on (h : AgreesBesides runs M N)
    (hafter : ∀ run' ∈ runs, run.after.script.Extends run'.before.script) :
    M.AgreesOn run.before.script.arena.size run.after.script.arena.size N :=
  (h.agrees hafter).on _

theorem cells_of_inhabited {cs : List ColumnType} (hatoms : M.carrier "Atom" = Set.range ι)
    (h : (M.full (relationSort cs)).Nonempty) :
    ∃ cells : List (Cell α), cells.map Cell.type = cs := by
  obtain ⟨d, hd⟩ := h
  obtain ⟨cells, hcells, _⟩ := (hasSort_tuple hatoms).mp hd
  exact ⟨cells, hcells⟩

variable (hv : Declared v s)

include hv

theorem CountRun.Satisfied.holds (h : run.Satisfied f N) (hs : s.Extends run.before.script)
    (hf : run.after.script.Extends f) (hN : Interprets v s ι I N)
    (hfinite : (I.denote [] run.counted).Finite) : run.Holds I := by
  obtain ⟨bound, hadmits, hencodes⟩ := run.encodesCount (hv.extend hs)
  have hN := hN.extend hv (hs.trans (hencodes.extension.trans hf))
  rw [CountRun.Holds, ← hadmits]
  exact hencodes.sound hf hN hfinite h.sorted h.assertions h.formula

/-- Values for comparisons that hold, each chosen where those before it have been. -/
theorem exists_satisfied
    (hruns : ∀ run ∈ runs, s.Extends run.before.script ∧ run.after.script.Extends f)
    (horder : runs.Pairwise fun run run' => run.after.script.Extends run'.before.script)
    (hM : Interprets v s ι I M) (hcounts : ∀ run ∈ runs, run.Counts M I)
    (hholds : ∀ run ∈ runs, run.Holds I) :
    ∃ N, AgreesBesides runs M N ∧ ∀ run ∈ runs, run.Satisfied f N := by
  induction runs generalizing M with
  | nil => exact ⟨M, ⟨rfl, fun _ _ => rfl⟩, List.forall_mem_nil _⟩
  | cons run runs ih =>
    obtain ⟨⟨hs, hf⟩, hruns⟩ := List.forall_mem_cons.mp hruns
    obtain ⟨hafter, horder⟩ := List.pairwise_cons.mp horder
    obtain ⟨hcount, hcounts⟩ := List.forall_mem_cons.mp hcounts
    obtain ⟨hhold, hholds⟩ := List.forall_mem_cons.mp hholds
    obtain ⟨bound, hadmits, hencodes⟩ := run.encodesCount (hv.extend hs)
    have hsf := hs.trans (hencodes.extension.trans hf)
    obtain ⟨N, hMN, hsorted, hadded, hformula⟩ := hencodes.complete hf (hM.extend hv hsf)
      hcount.finite hcount.fits (cells_of_inhabited hM.atoms hcount.inhabited)
      ((hadmits _).mpr hhold)
    have hN := hM.agrees hv (.refl _) (hMN.agrees.mono hs.size_le)
    have hcounts : ∀ run ∈ runs, run.Counts N I := by
      intro run hrun
      obtain ⟨hfinite, hfits, hinhabited⟩ := hcounts run hrun
      rw [Structure.full_congr hMN.1] at hinhabited
      exact ⟨hfinite, hfits, hinhabited⟩
    obtain ⟨K, hNK, hsatisfied⟩ := ih hruns horder hN hcounts hholds
    have hK := hN.agrees hv (.refl _) (hNK.agrees fun run' hrun' => (hruns run' hrun').1)
    -- what is chosen later lies beyond what this comparison owns
    have hon := hNK.on hafter
    refine ⟨K, ⟨hMN.1.trans hNK.1, fun id hid => ?_⟩, List.forall_mem_cons.mpr ⟨?_, hsatisfied⟩⟩
    · obtain ⟨hrun, hid⟩ := List.forall_mem_cons.mp hid
      have houtside : id.index < run.before.script.arena.size ∨
          run.after.script.arena.size ≤ id.index := by
        unfold CountRun.Owns at hrun
        omega
      rw [hMN.2 id houtside, hNK.2 id hid]
    · exact ⟨hsorted.congr hon, hencodes.frame hf hon hadded,
        hencodes.transfer hf (hN.extend hv hsf) (hK.extend hv hsf) hon hformula⟩

end Runs

/-! ## Exactness -/

/-- Cardinalities are compared exactly. A comparison that bounds a cardinality is
rejected just if it has too many elements to enumerate; otherwise, as long as the
names for that are free, it is encoded, and declares constants and a set. Any
number of comparisons, encoded one after the other, have no declaration in common,
and in a structure in which the built-in assertions hold there are values for
their declarations that satisfy all of them just if each comparison holds. -/
theorem encode_counts_exactly {m : Model} {names : NameSupply} {v : Vocabulary} {start : Progress}
    (hvocabulary : Returns (declareVocabulary m) ⟨.empty, names⟩ v start) :
    (∀ {e x : Expr} {c : Comparison} {k : Int} {cs : List ColumnType} {p : Progress},
      ComparesCount x k c e → c ≠ .ne → Text.fitsSigned64 k = true → HasColumns m x cs →
      x.counts = false → x.Resolves m [] → start.script.Extends p.script →
      (Rejects (encode v e [] .top) p ↔ TooMany c k) ∧
      (¬ TooMany c k → Room p e.enumerations.sum e.enumerations.length →
        ∃ r q, Returns (encode v e [] .top) p r q ∧ r.witnesses = [] ∧
          p.script.Extends q.script ∧
          ∀ i, p.script.arena.size ≤ i → i < q.script.arena.size → ∃ k,
            q.script.arena[i]? =
                some (.constant (elementName k) (.tuple (cs.map ColumnType.sort))) ∨
              q.script.arena[i]? = some (.function (setName k) [] (relationSort cs)))) ∧
    ∀ {runs : List (CountRun v)} {f : Script} {E : Type} {M : Structure E},
      (∀ run ∈ runs, start.script.Extends run.before.script ∧ run.after.script.Extends f) →
      (runs.Pairwise fun run run' => run.after.script.Extends run'.before.script) →
      M.Sorted start.script → M.Models start.script start.script.assertions →
      (∀ run ∈ runs, run.Counts M (instanceOf M start.script m)) →
      (runs.Pairwise fun run run' => ∀ id, ¬ (run.Owns id ∧ run'.Owns id)) ∧
      ((∃ N, AgreesBesides runs M N ∧ ∀ run ∈ runs, run.Satisfied f N) ↔
        ∀ run ∈ runs, run.Holds (instanceOf M start.script m)) := by
  have hdeclares := declareVocabulary_returns hvocabulary
  have hmodel := hdeclares.model
  subst hmodel
  refine ⟨?_, ?_⟩
  · intro e x c k cs p hcompares hc hk hx hcounts hresolves hp
    obtain ⟨bound, hbound⟩ := ofComparison?_of_ne (k := k) hc
    have hv := hdeclares.declared.extend hp
    have hscope : x.Resolves v.model (([] : Scope).map Prod.fst) := hresolves
    have hyields := yieldsRelation_encode hdeclares.covers hx hcounts hscope .nested
    have htooMany := tooMany_iff hk hbound
    rw [hcompares.encode_eq, rejects_countComparison hbound hyields hv,
      hcompares.enumerations_eq hbound]
    refine ⟨htooMany, fun hfew hroom => ?_⟩
    have hsmall : ∀ n ∈ bound.costs, n ≤ maxEnumerated := fun n hn =>
      Nat.not_lt.mp fun hmany => hfew (htooMany.mp ⟨n, hn, hmany⟩)
    obtain ⟨r, q, hr, _, _⟩ := yields_countComparison hbound hyields hsmall hv (bindsAtoms_nil _) hroom
    obtain ⟨_, _, _, hnone, hencodes⟩ := encodesCount_returns hx hv hr
    exact ⟨r, q, hr, hnone, hencodes.extension, hencodes.fresh⟩
  · intro runs f E M hruns horder hsorted hbuiltin hcounts
    have hdeclared := hdeclares.declared
    have hM := interprets_of_builtins hdeclares (.refl _) hsorted hbuiltin
    refine ⟨horder.imp fun hext id => ?_, ?_, exists_satisfied hdeclared hruns horder hM hcounts⟩
    · rintro ⟨⟨_, hafter⟩, hbefore, _⟩
      have := hext.size_le
      omega
    · rintro ⟨N, hMN, hsatisfied⟩ run hrun
      have hN := hM.agrees hdeclared (.refl _) (hMN.agrees fun run hrun => (hruns run hrun).1)
      exact (hsatisfied run hrun).holds hdeclared (hruns run hrun).1 (hruns run hrun).2 hN
        (hcounts run hrun).finite

/-- At most three atoms. -/
def atMostThree : Expr := .binary .le (.unary .card (.sig ⟨0⟩)) (.int 3)

/-- The number two, with a cast, is more than there are atoms. -/
def twoIsMore : Expr := .binary .gt (.unary .toInt (.int 2)) (.unary .card (.sig ⟨0⟩))

/-- One atom, in every signature. -/
def loneInstance : Instance Unit where
  sig _ := Set.univ
  field _ := ∅

theorem ncard_atoms_lone (v : Vocabulary) (s : Script) (m : Model) (id : SigId) :
    ((instanceOf (realize v loneInstance Set.univ) s m).denote [] (.sig id)).Finite ∧
      ((instanceOf (realize v loneInstance Set.univ) s m).denote [] (.sig id)).ncard ≤ 1 := by
  have hatoms : ∀ a b : (realize v loneInstance Set.univ).carrier "Atom", a = b := by
    intro a b
    have hrange : (realize v loneInstance Set.univ).carrier "Atom" = Set.range Sum.inl := realize_atoms
    obtain ⟨⟨⟩, ha⟩ : a.1 ∈ Set.range Sum.inl := hrange ▸ a.2
    obtain ⟨⟨⟩, hb⟩ : b.1 ∈ Set.range Sum.inl := hrange ▸ b.2
    exact Subtype.ext (ha.symm.trans hb)
  have hone : ((instanceOf (realize v loneInstance Set.univ) s m).denote []
      (.sig id)).Subsingleton := by
    rintro _ ⟨a, _, rfl⟩ _ ⟨b, _, rfl⟩
    rw [hatoms a b]
  exact ⟨hone.finite, (Set.ncard_le_one hone.finite).mpr fun a ha b hb => hone ha hb⟩

/-- Both comparisons hold where there is one atom; four constants and two sets are
declared for them. -/
theorem encode_counts_exactly_lone : ∃ v start,
    Returns (declareVocabulary (labelledModel "A")) ⟨.empty, {}⟩ v start ∧
    Rejects (encode v (.binary .equals (.unary .card (.sig ⟨0⟩)) (.int 65537)) [] .top) start ∧
    ∃ (runs : List (CountRun v)) (f : Script) (M N : Structure (Unit ⊕ List Int)),
      runs.map CountRun.fact = [atMostThree, twoIsMore] ∧
      AgreesBesides runs M N ∧ ∀ run ∈ runs, run.Satisfied f N := by
  obtain ⟨⟨⟩, q, hrun⟩ := returns_of_isOk (m := do
      let v ← declareVocabulary (labelledModel "A")
      let _ ← encode v atMostThree [] .top
      let _ ← encode v twoIsMore [] .top) (p := ⟨.empty, {}⟩) (by decide +kernel)
  simp only [returns_bind] at hrun
  obtain ⟨v, start, hv, r, p, hr, r', q, hr', _, _⟩ := hrun
  have hdeclares := declareVocabulary_returns hv
  obtain ⟨hexact, hvalues⟩ := encode_counts_exactly hv
  refine ⟨v, start, hv, ?_, ?_⟩
  · refine (hexact (.left rfl rfl rfl) (by decide) (by decide) (.sig _) rfl ?_ (.refl _)).1.mpr ?_
    · exact ⟨by decide, by decide⟩
    · exact ⟨by decide, by decide⟩
  have hsig : HasColumns v.model (.sig ⟨0⟩) [.atom] := .sig _
  let first : CountRun v := ⟨atMostThree, .sig ⟨0⟩, [.atom], .le, 3, start, r, p, .left rfl rfl rfl,
    by decide, hsig, hr⟩
  let second : CountRun v := ⟨twoIsMore, .sig ⟨0⟩, [.atom], .lt, 2, p, r', q,
    .right (c := .gt) rfl rfl rfl, by decide, hsig, hr'⟩
  have htyped : ∀ {id : FieldId} {fd : Field} {t : List (Cell Unit)},
      (labelledModel "A").field? id = some fd → t ∈ loneInstance.field id →
      t.map Cell.type = fieldTypes fd := fun _ ht => ht.elim
  let M := realize v loneInstance Set.univ
  have hM : Interprets v start.script Sum.inl loneInstance M := interprets_realize hdeclares htyped
  have hinhabited : (M.full (relationSort [.atom])).Nonempty :=
    ⟨_, (hasSort_tuple realize_atoms).mpr ⟨[.atom ()], rfl, rfl⟩⟩
  obtain ⟨hfinite, hcard⟩ := ncard_atoms_lone v start.script (labelledModel "A") ⟨0⟩
  obtain ⟨_, _, hfirst⟩ := first.encodesCount hdeclares.declared
  obtain ⟨_, _, hsecond⟩ := second.encodesCount (hdeclares.declared.extend hfirst.extension)
  have hruns : ∀ run ∈ [first, second], start.script.Extends run.before.script ∧
      run.after.script.Extends q.script :=
    List.forall_mem_cons.mpr ⟨⟨.refl _, hsecond.extension⟩,
      List.forall_mem_singleton.mpr ⟨hfirst.extension, .refl _⟩⟩
  have horder : [first, second].Pairwise fun run run' =>
      run.after.script.Extends run'.before.script := List.pairwise_pair.mpr (.refl _)
  have hcounts : ∀ run ∈ [first, second], run.Counts M (instanceOf M start.script (labelledModel "A")) :=
    List.forall_mem_cons.mpr ⟨⟨hfinite, hcard.trans (by decide), hinhabited⟩,
      List.forall_mem_singleton.mpr ⟨hfinite, hcard.trans (by decide), hinhabited⟩⟩
  have hfew (k : Int) (hk : 1 ≤ k) :
      ((instanceOf M start.script (labelledModel "A")).denote [] (.sig ⟨0⟩)).ncard ≤ k :=
    (Int.ofNat_le.mpr hcard).trans hk
  have hholds : ∀ run ∈ [first, second], run.Holds (instanceOf M start.script (labelledModel "A")) :=
    List.forall_mem_cons.mpr ⟨hfew 3 (by decide), List.forall_mem_singleton.mpr
      (Int.lt_add_one_of_le (hfew 1 (by decide)))⟩
  obtain ⟨N, hN⟩ := (hvalues hruns horder (sorted_realize hdeclares htyped (.refl _))
    (hM.models_builtins hdeclares (.refl _)) hcounts).2.mpr hholds
  exact ⟨[first, second], q.script, M, N, rfl, hN⟩

end TupleLogic.Encoding
