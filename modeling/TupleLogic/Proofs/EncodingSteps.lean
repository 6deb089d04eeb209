import TupleLogic.Proofs.GroundedTerms
import TupleLogic.Proofs.TypedRelations

/-! What encoders do, step by step. An encoder reads the script only through the
sorts of terms, and changes it only by declaring relations, by drawing variables,
elements and sets, and by asserting formulas. `Stepwise` says so, and that the
terms it asks about and asserts mention declarations that exist by then. The
constructs are taken apart here once; what every run keeps follows by induction
on the steps. -/

namespace TupleLogic

open Encoding (IntSort intSorts conjNontrivial)

namespace Term

/-- The term mentions the first `n` declarations, sorts that every encoding has,
and the functions that give tuples of integers. -/
inductive Over (n : Nat) : Term → Prop
  | ref {id : DeclId} : id.index < n → Over n (.ref id)
  | int {k : Int} : Over n (.int k)
  | bool {b : Bool} : Over n (.bool b)
  | emptySet {sort : TermSort} : sort.encodable = true → Over n (.emptySet sort)
  | fullSet {sort : TermSort} : sort.encodable = true → Over n (.fullSet sort)
  | unary {op : UnaryOp} {a : Term} : Over n a → Over n (.unary op a)
  | binary {op : BinaryOp} {a b : Term} : Over n a → Over n b → Over n (.binary op a b)
  | nary {op : NaryOp} {args : List Term} : (∀ t ∈ args, Over n t) → Over n (.nary op args)
  | quantified {q : Quantifier} {vars : List DeclId} {body : Term} :
    (∀ x ∈ vars, x.index < n) → Over n body → Over n (.quantified q vars body)
  | value {w : IntSort} {a : Term} : w ∈ intSorts → Over n a → Over n (w.valueOf a)

variable {n k : Nat} {t : Term}

theorem Over.mono (h : t.Over n) (hnk : n ≤ k) : t.Over k := by
  induction h with
  | ref hid => exact .ref (Nat.lt_of_lt_of_le hid hnk)
  | int => exact .int
  | bool => exact .bool
  | emptySet hs => exact .emptySet hs
  | fullSet hs => exact .fullSet hs
  | unary _ ih => exact .unary ih
  | binary _ _ iha ihb => exact .binary iha ihb
  | nary _ ih => exact .nary ih
  | quantified hvars _ ih => exact .quantified (fun x hx => Nat.lt_of_lt_of_le (hvars x hx) hnk) ih
  | value hw _ ih => exact .value hw ih

theorem over_conj {ts : List Term} (h : ∀ t ∈ ts, t.Over n) : (conj ts).Over n := by
  unfold conj
  split
  · exact .bool
  · exact h _ (List.mem_singleton_self _)
  · exact .nary h

theorem over_disj {ts : List Term} (h : ∀ t ∈ ts, t.Over n) : (disj ts).Over n := by
  unfold disj
  split
  · exact .bool
  · exact h _ (List.mem_singleton_self _)
  · exact .nary h

theorem over_conjNontrivial {ts : List Term} (h : ∀ t ∈ ts, t.Over n) :
    (conjNontrivial ts).Over n := over_conj fun t ht => h t (List.mem_of_mem_filter ht)

theorem over_foldl_union {ts : List Term} (ht : t.Over n) (h : ∀ u ∈ ts, u.Over n) :
    (ts.foldl union t).Over n := by
  induction ts generalizing t with
  | nil => exact ht
  | cons u ts ih =>
    obtain ⟨hu, hts⟩ := List.forall_mem_cons.mp h
    exact ih (.binary ht hu) hts

end Term

namespace Encoding

open Relational Encoder

/-! ## Steps -/

/-- The encoder is made of steps, each of which is allowed where `n` declarations
exist, and `post` holds of what it returns and of how many exist then. Relations
are declared under names of `given`, and only variables that are `free` are
reported as unbound. -/
inductive Stepwise (given : List String) (free : String → Prop) :
    {α : Type} → Nat → Encoder α → (Nat → α → Prop) → Prop
  | pure {α : Type} {n : Nat} {a : α} {post : Nat → α → Prop} :
    (∀ k, n ≤ k → post k a) → Stepwise given free n (pure a) post
  | bind {α β : Type} {n : Nat} {m : Encoder α} {f : α → Encoder β} {mid : Nat → α → Prop}
    {post : Nat → β → Prop} : Stepwise given free n m mid →
    (∀ k a, n ≤ k → mid k a → Stepwise given free k (f a) post) →
    Stepwise given free n (m >>= f) post
  | weaken {α : Type} {n : Nat} {m : Encoder α} {post post' : Nat → α → Prop} :
    Stepwise given free n m post → (∀ k a, n ≤ k → post k a → post' k a) →
    Stepwise given free n m post'
  | unsupported {α : Type} {n : Nat} {cause : Unsupported} {post : Nat → α → Prop} :
    Stepwise given free n (unsupported cause) post
  | unbound {α : Type} {n : Nat} {name : String} {post : Nat → α → Prop} : free name →
    Stepwise given free n (throw (.unbound name)) post
  | malformed {α : Type} {n : Nat} {cause : Malformed} {post : Nat → α → Prop} :
    Stepwise given free n (throw (.term (.malformed cause))) post
  | sortOf {n : Nat} {t : Term} : t.Over n →
    Stepwise given free n (sortOf t) fun _ sort => sort.encodable = true
  | declareRelation {n : Nat} {name : String} {sort : TermSort} : name ∈ given →
    sort.encodable = true → Stepwise given free n (declareRelation name sort) fun k x => x.index < k
  | freshVariable {n : Nat} {sort : TermSort} : sort.encodable = true →
    Stepwise given free n (freshVariable sort) fun k x => x.index < k
  | freshElement {n : Nat} {sort : TermSort} : sort.encodable = true →
    Stepwise given free n (freshElement sort) fun k x => x.index < k
  | freshSet {n : Nat} {sort : TermSort} : sort.encodable = true →
    Stepwise given free n (freshSet sort) fun k x => x.index < k
  | assertTerm {n : Nat} {name : Option String} {t : Term} : t.Over n →
    Stepwise given free n (assertTerm name t) fun _ _ => True

section Steps

variable {α β : Type} {given : List String} {free : String → Prop} {n k : Nat}

theorem Stepwise.mono {m : Encoder α} {post : Nat → α → Prop} (h : Stepwise given free n m post)
    (hnk : n ≤ k) : Stepwise given free k m post := by
  induction h generalizing k with
  | pure h => exact .pure fun j hj => h j (hnk.trans hj)
  | bind _ _ ihm ihf => exact .bind (ihm hnk) fun j a hj ha => ihf j a (hnk.trans hj) ha (Nat.le_refl j)
  | weaken _ hpost ih => exact .weaken (ih hnk) fun j a hj => hpost j a (hnk.trans hj)
  | unsupported => exact .unsupported
  | unbound h => exact .unbound h
  | malformed => exact .malformed
  | sortOf ht => exact .sortOf (ht.mono hnk)
  | declareRelation hname hsort => exact .declareRelation hname hsort
  | freshVariable hsort => exact .freshVariable hsort
  | freshElement hsort => exact .freshElement hsort
  | freshSet hsort => exact .freshSet hsort
  | assertTerm ht => exact .assertTerm (ht.mono hnk)

theorem Stepwise.unsupported_bind {cause : Unsupported} {f : α → Encoder β}
    {post : Nat → β → Prop} : Stepwise given free n (Encoder.unsupported cause >>= f) post :=
  .unsupported

/-- A check of the term layer, and what it builds. -/
theorem Stepwise.check {c : Prop} [Decidable c] {cause : Malformed} {a : α}
    {post : Nat → α → Prop} (h : ∀ k, n ≤ k → post k a) :
    Stepwise given free n (liftTerm (if c then .error (.malformed cause) else .ok a)) post := by
  split
  · exact .malformed
  · exact .pure h

theorem Stepwise.mkTuple {ts : List Term} (h : ∀ t ∈ ts, t.Over n) :
    Stepwise given free n (liftTerm (Term.mkTuple ts)) Term.Over :=
  .check fun _ hk => .nary fun t ht => (h t ht).mono hk

theorem Stepwise.distinct {ts : List Term} (h : ∀ t ∈ ts, t.Over n) :
    Stepwise given free n (liftTerm (Term.distinct ts)) Term.Over :=
  .check fun _ hk => .nary fun t ht => (h t ht).mono hk

theorem Stepwise.quantify {q : Quantifier} {vars : List DeclId} {body : Term}
    (hvars : ∀ x ∈ vars, x.index < n) (hbody : body.Over n) :
    Stepwise given free n (liftTerm (Term.quantify q vars body)) Term.Over :=
  .check fun _ hk => .quantified (fun x hx => Nat.lt_of_lt_of_le (hvars x hx) hk) (hbody.mono hk)

theorem Stepwise.unionAll {ts : List Term} (h : ∀ t ∈ ts, t.Over n) :
    Stepwise given free n (liftTerm (Term.unionAll ts)) Term.Over := by
  cases ts with
  | nil => exact .malformed
  | cons t ts =>
    obtain ⟨ht, hts⟩ := List.forall_mem_cons.mp h
    exact .pure fun _ hk => (Term.over_foldl_union ht hts).mono hk

theorem Stepwise.mkRelation {cs : List TermSort} (h : ∀ c ∈ cs, c.encodable = true) :
    Stepwise given free n (liftTerm (TermSort.mkRelation cs)) fun _ sort => sort.encodable = true := by
  cases hsort : TermSort.mkRelation cs with
  | error e =>
    unfold TermSort.mkRelation TermSort.mkTuple at hsort
    split at hsort
    · obtain rfl := Except.error.inj hsort
      exact .malformed
    · cases hsort
  | ok sort => exact .pure fun _ _ => encodable_mkRelation h hsort

theorem Stepwise.mapM {f : α → Encoder β} {post : Nat → β → Prop} {xs : List α}
    (h : ∀ x ∈ xs, Stepwise given free n (f x) post)
    (hpost : ∀ {j k : Nat} {b : β}, j ≤ k → post j b → post k b) :
    Stepwise given free n (xs.mapM f) fun k bs => ∀ b ∈ bs, post k b := by
  induction xs generalizing n with
  | nil =>
    rw [List.mapM_nil]
    exact .pure fun _ _ => List.forall_mem_nil _
  | cons x xs ih =>
    rw [List.mapM_cons]
    obtain ⟨hx, hxs⟩ := List.forall_mem_cons.mp h
    refine .bind hx fun k b hk hb => .bind (ih fun y hy => (hxs y hy).mono hk) fun j bs hj hbs => ?_
    exact .pure fun i hi => List.forall_mem_cons.mpr
      ⟨hpost (hj.trans hi) hb, fun c hc => hpost hi (hbs c hc)⟩

theorem Stepwise.forM {f : α → Encoder PUnit} {xs : List α}
    (h : ∀ x ∈ xs, Stepwise given free n (f x) fun _ _ => True) :
    Stepwise given free n (xs.forM f) fun _ _ => True := by
  induction xs generalizing n with
  | nil => exact .pure fun _ _ => trivial
  | cons x xs ih =>
    obtain ⟨hx, hxs⟩ := List.forall_mem_cons.mp h
    exact .bind hx fun k _ hk _ => ih fun y hy => (hxs y hy).mono hk

end Steps

/-! ## Runs of single steps -/

section Runs

variable {p : Progress} {name : String} {sort : TermSort} {id : DeclId}

theorem run_declareRelation (h : p.script.lookup name = none) :
    (declareRelation name sort).run.run p =
      (.ok p.script.nextId, ⟨p.script.add (.function name [] sort), p.names⟩) :=
  run_edit_ok (Script.declareFunction_eq_add.mpr ⟨h, rfl, rfl⟩)

theorem run_declareRelation_taken (h : p.script.lookup name = some id) :
    (declareRelation name sort).run.run p =
      (.error (.term (.malformed (.nameTaken .declareFunction name))), p) := by
  refine run_edit_error (Script.Edit.traceless_declareFunction name [] sort) ?_
  exact Script.declareFunction_taken h

theorem run_freshVariable :
    (freshVariable sort).run.run p = (.ok p.script.nextId, p.withVariable sort) := rfl

theorem run_freshElement (h : p.script.lookup p.names.freshElement.1 = none) :
    (freshElement sort).run.run p = (.ok p.script.nextId,
      ⟨p.script.add (.constant p.names.freshElement.1 sort), p.names.freshElement.2⟩) := by
  change (edit (.declareConstant p.names.freshElement.1 sort)).run.run
    ⟨p.script, p.names.freshElement.2⟩ = _
  exact run_edit_ok (Script.declareConstant_eq_add.mpr ⟨h, rfl, rfl⟩)

theorem run_freshElement_taken (h : p.script.lookup p.names.freshElement.1 = some id) :
    (freshElement sort).run.run p =
      (.error (.term (.malformed (.nameTaken .declareConstant p.names.freshElement.1))),
        ⟨p.script, p.names.freshElement.2⟩) := by
  change (edit (.declareConstant p.names.freshElement.1 sort)).run.run
    ⟨p.script, p.names.freshElement.2⟩ = _
  refine run_edit_error (Script.Edit.traceless_declareConstant _ sort) ?_
  exact Script.declareConstant_taken h

theorem run_freshSet (h : p.script.lookup p.names.freshSet.1 = none) :
    (freshSet sort).run.run p = (.ok p.script.nextId,
      ⟨p.script.add (.function p.names.freshSet.1 [] sort), p.names.freshSet.2⟩) := by
  change (declareRelation p.names.freshSet.1 sort).run.run ⟨p.script, p.names.freshSet.2⟩ = _
  exact run_declareRelation h

theorem run_freshSet_taken (h : p.script.lookup p.names.freshSet.1 = some id) :
    (freshSet sort).run.run p =
      (.error (.term (.malformed (.nameTaken .declareFunction p.names.freshSet.1))),
        ⟨p.script, p.names.freshSet.2⟩) := by
  change (declareRelation p.names.freshSet.1 sort).run.run ⟨p.script, p.names.freshSet.2⟩ = _
  exact run_declareRelation_taken h

theorem run_assertTerm {label : Option String} {t : Term} :
    (assertTerm label t).run.run p = (.ok (), ⟨p.script.addAssertion label t, p.names⟩) := rfl

end Runs

/-! ## Results over the first declarations -/

structure Witness.Over (n : Nat) (w : Witness) : Prop where
  vars : ∀ x ∈ w.vars, x.index < n
  guard : w.guard.Over n

structure Encoded.Over (n : Nat) (e : Encoded) : Prop where
  term : e.term.Over n
  witnesses : ∀ w ∈ e.witnesses, w.Over n

structure Bound.Over (n : Nat) (b : Bound) : Prop where
  vars : ∀ x ∈ b.vars, x.index < n
  guards : ∀ t ∈ b.guards, t.Over n
  scope : ∀ entry ∈ b.scope, entry.2.index < n

structure Specimen.Over (n : Nat) (s : Specimen) : Prop where
  vars : ∀ x ∈ s.vars, x.index < n
  tuple : s.tuple.Over n

structure Vocabulary.Over (n : Nat) (v : Vocabulary) : Prop where
  univ : v.univRelation.index < n
  none : v.noneRelation.index < n
  iden : v.idenRelation.index < n
  signatures : ∀ x ∈ v.signatures, x.index < n
  fields : ∀ xs ∈ v.fields, ∀ x ∈ xs, x.index < n

section Results

variable {n k : Nat}

theorem lt_mono {xs : List DeclId} (h : ∀ x ∈ xs, x.index < n) (hnk : n ≤ k) :
    ∀ x ∈ xs, x.index < k := fun x hx => Nat.lt_of_lt_of_le (h x hx) hnk

theorem Witness.Over.mono {w : Witness} (h : w.Over n) (hnk : n ≤ k) : w.Over k :=
  ⟨lt_mono h.vars hnk, h.guard.mono hnk⟩

theorem Encoded.Over.mono {e : Encoded} (h : e.Over n) (hnk : n ≤ k) : e.Over k :=
  ⟨h.term.mono hnk, fun w hw => (h.witnesses w hw).mono hnk⟩

theorem Bound.Over.mono {b : Bound} (h : b.Over n) (hnk : n ≤ k) : b.Over k :=
  ⟨lt_mono h.vars hnk, fun t ht => (h.guards t ht).mono hnk,
    fun entry he => Nat.lt_of_lt_of_le (h.scope entry he) hnk⟩

theorem Vocabulary.Over.mono {v : Vocabulary} (h : v.Over n) (hnk : n ≤ k) : v.Over k where
  univ := Nat.lt_of_lt_of_le h.univ hnk
  none := Nat.lt_of_lt_of_le h.none hnk
  iden := Nat.lt_of_lt_of_le h.iden hnk
  signatures := lt_mono h.signatures hnk
  fields xs hxs := lt_mono (h.fields xs hxs) hnk

theorem Encoded.over_plain {t : Term} (h : t.Over n) : Encoded.Over n ⟨t, []⟩ :=
  ⟨h, List.forall_mem_nil _⟩

theorem Encoded.Over.map {e : Encoded} (h : e.Over n) {f : Term → Term}
    (hf : ∀ {t : Term}, t.Over n → (f t).Over n) : (e.map f).Over n :=
  ⟨hf h.term, h.witnesses⟩

end Results

/-! ## Formulas and relations -/

section Constructs

variable {given : List String} {free : String → Prop} {v : Vocabulary} {n : Nat} {t : Term}
  {encoding lhs rhs : Encoder Encoded}

/-- A reference is promoted by its sort. -/
theorem promote_ref_eq (id : DeclId) : promote (.ref id) = (do
    match ← sortOf (.ref id) with
    | .set _ => return .ref id
    | .tuple _ => return .singleton (.ref id)
    | _ => return .singleton (← liftTerm (Term.mkTuple [.ref id]))) := by
  simp only [promote, Term.decl?, Encoder.sortOf, bind_assoc]
  refine congrArg (get >>= ·) (funext fun p => ?_)
  rw [Script.sortOf]
  cases p.script.decl id <;> rfl

theorem stepwise_promote (ht : t.Over n) : Stepwise given free n (promote t) Term.Over := by
  cases t with
  | ref id =>
    rw [promote_ref_eq]
    refine .bind (.sortOf ht) fun k sort hk _ => ?_
    have ht := ht.mono hk
    split
    · exact .pure fun _ hj => ht.mono hj
    · exact .pure fun _ hj => .unary (ht.mono hj)
    · refine .bind (.mkTuple (List.forall_mem_singleton.mpr ht)) fun j u hj hu => ?_
      exact .pure fun _ hi => .unary (hu.mono hi)
  | _ => exact .pure fun _ hk => ht.mono hk

theorem stepwise_relation (h : Stepwise given free n encoding Encoded.Over) :
    Stepwise given free n (relation encoding) Encoded.Over := by
  refine .bind h fun k e hk he => .bind (stepwise_promote he.term) fun j t hj ht => ?_
  exact .pure fun _ hi => ⟨ht.mono hi, (he.mono (hj.trans hi)).witnesses⟩

theorem stepwise_close {e : Encoded} (he : e.Over n) :
    Stepwise given free n (liftTerm e.close) Term.Over := by
  unfold Encoded.close
  split
  · exact .pure fun _ hk => he.term.mono hk
  · refine .quantify (fun x hx => ?_) (Term.over_conjNontrivial fun t ht => ?_)
    · obtain ⟨w, hw, hx⟩ := List.mem_flatMap.mp hx
      exact (he.witnesses w hw).vars x hx
    · rcases List.mem_append.mp ht with ht | ht
      · obtain ⟨w, hw, rfl⟩ := List.mem_map.mp ht
        exact (he.witnesses w hw).guard
      · obtain rfl := List.mem_singleton.mp ht
        exact he.term

theorem stepwise_formula (h : Stepwise given free n encoding Encoded.Over) :
    Stepwise given free n (formula encoding) Term.Over :=
  .bind h fun _ _ _ he => stepwise_close he

theorem stepwise_negation (h : Stepwise given free n encoding Encoded.Over) :
    Stepwise given free n (do return ⟨.not (← formula encoding), []⟩) Encoded.Over :=
  .bind (stepwise_formula h) fun _ _ _ ht => .pure fun _ hk =>
    Encoded.over_plain (.unary (ht.mono hk))

theorem stepwise_both {build : Term → Term → Term}
    (hbuild : ∀ {k : Nat} {a b : Term}, a.Over k → b.Over k → (build a b).Over k)
    (hl : Stepwise given free n lhs Encoded.Over) (hr : Stepwise given free n rhs Encoded.Over) :
    Stepwise given free n (both lhs rhs build) Encoded.Over := by
  refine .bind hl fun k a hk ha => .bind (hr.mono hk) fun j b hj hb => .pure fun i hi => ?_
  have ha := ha.mono (hj.trans hi)
  have hb := hb.mono hi
  exact ⟨hbuild ha.term hb.term, List.forall_mem_append.mpr ⟨ha.witnesses, hb.witnesses⟩⟩

theorem stepwise_setOperation {build : Term → Term → Term}
    (hbuild : ∀ {k : Nat} {a b : Term}, a.Over k → b.Over k → (build a b).Over k)
    (hl : Stepwise given free n lhs Encoded.Over) (hr : Stepwise given free n rhs Encoded.Over) :
    Stepwise given free n (setOperation lhs rhs build) Encoded.Over :=
  stepwise_both hbuild (stepwise_relation hl) (stepwise_relation hr)

theorem stepwise_binaryRelation {expr : String} (h : Stepwise given free n encoding Encoded.Over) :
    Stepwise given free n (binaryRelation expr encoding) Encoded.Over := by
  refine .bind (stepwise_relation h) fun k e hk he => .bind (.sortOf he.term) fun j sort hj _ => ?_
  split
  · exact .pure fun _ hi => he.mono (hj.trans hi)
  · exact .unsupported

theorem stepwise_joinRelations {expr : String} (hl : Stepwise given free n lhs Encoded.Over)
    (hr : Stepwise given free n rhs Encoded.Over) :
    Stepwise given free n (joinRelations expr lhs rhs) Encoded.Over := by
  refine .bind (stepwise_relation hl) fun k a hk ha => ?_
  refine .bind (stepwise_relation (hr.mono hk)) fun j b hj hb => ?_
  have ha := ha.mono hj
  have hjoin {i : Nat} (hi : j ≤ i) :
      Stepwise given free i (pure ⟨.join a.term b.term, a.witnesses ++ b.witnesses⟩) Encoded.Over := by
    refine .pure fun _ hi' => ?_
    have ha := ha.mono (hi.trans hi')
    have hb := hb.mono (hi.trans hi')
    exact ⟨.binary ha.term hb.term, List.forall_mem_append.mpr ⟨ha.witnesses, hb.witnesses⟩⟩
  refine .bind (.sortOf ha.term) fun i sort hi _ => ?_
  split
  · refine .bind (.sortOf (hb.term.mono hi)) fun i' _ hi' _ => ?_
    split
    · exact .unsupported_bind
    · exact hjoin (hi.trans hi')
  · exact hjoin hi

/-! ## Witnesses -/

theorem encodable_named {w : IntSort} (hw : w ∈ intSorts) :
    (TermSort.named w.sort).encodable = true := by
  simp only [intSorts, List.mem_cons, List.not_mem_nil, or_false] at hw
  rcases hw with rfl | rfl | rfl <;> decide

theorem stepwise_specimenColumn {expr : String} {sort : TermSort} (hs : sort.encodable = true) :
    Stepwise given free n (specimenColumn expr sort)
      fun k c => c.1.index < k ∧ c.2.Over k := by
  unfold specimenColumn
  split
  · refine .bind (.freshVariable (encodable_named (w := unaryInts) (by decide))) fun k x hk hx => ?_
    refine .pure fun j hj => ?_
    have hx := Nat.lt_of_lt_of_le hx hj
    exact ⟨hx, .binary .int (.value (w := unaryInts) (by decide) (.ref hx))⟩
  · refine .bind (.freshVariable hs) fun k x hk hx => .pure fun j hj => ?_
    have hx := Nat.lt_of_lt_of_le hx hj
    exact ⟨hx, .ref hx⟩
  · exact .unsupported

theorem stepwise_specimen {expr : String} {sort : TermSort} (hs : sort.encodable = true) :
    Stepwise given free n (specimen expr sort) Specimen.Over := by
  unfold specimen
  split
  · exact .unsupported
  · rename_i cs hcs
    refine .bind (.mapM (fun c hc => stepwise_specimenColumn (encodable_of_columns? hs hcs c hc))
      fun hjk h => ⟨Nat.lt_of_lt_of_le h.1 hjk, h.2.mono hjk⟩) fun k elements hk hes => ?_
    refine .bind (.mkTuple (List.forall_mem_map.mpr fun c hc => (hes c hc).2)) fun j tuple hj ht => ?_
    refine .pure fun i hi => ⟨List.forall_mem_map.mpr fun c hc => ?_, ht.mono hi⟩
    exact Nat.lt_of_lt_of_le (hes c hc).1 (hj.trans hi)

/-- What is said of a tuple and a relation. -/
theorem stepwise_witnessed {expr : String} {guard : Term → Term → Term}
    (hguard : ∀ {k : Nat} {a b : Term}, a.Over k → b.Over k → (guard a b).Over k)
    (h : Stepwise given free n encoding Encoded.Over) :
    Stepwise given free n (witnessed expr guard encoding) Encoded.Over := by
  refine .bind (stepwise_relation h) fun k set hk hset => ?_
  refine .bind (.sortOf hset.term) fun j sort hj hsort => ?_
  refine .bind (stepwise_specimen hsort) fun i sample hi hsample => ?_
  have hset := hset.mono (hj.trans hi)
  have hclaim := hguard hsample.tuple hset.term
  have hdone {k : Nat} {w : Witness} (hk : i ≤ k) (hw : w.Over k) :
      Stepwise given free k (pure ⟨.bool true, set.witnesses ++ [w]⟩) Encoded.Over := by
    refine .pure fun j hj => ⟨.bool, List.forall_mem_append.mpr ⟨?_, ?_⟩⟩
    · exact (hset.mono (hk.trans hj)).witnesses
    · exact List.forall_mem_singleton.mpr (hw.mono hj)
  -- a tuple of two or three integers is also the value of an element
  have hvalue {w : IntSort} (hw : w ∈ intSorts) : Stepwise given free i (do
      let x ← freshVariable (.named w.sort)
      pure ⟨.bool true, set.witnesses ++ [⟨sample.vars ++ [x],
        .and (guard sample.tuple set.term) (.equals (w.valueOf (.ref x)) sample.tuple)⟩]⟩)
      Encoded.Over := by
    refine .bind (.freshVariable (encodable_named hw)) fun k x hk hx => hdone hk ⟨?_, ?_⟩
    · exact List.forall_mem_append.mpr ⟨lt_mono hsample.vars hk, List.forall_mem_singleton.mpr hx⟩
    · have hequal : (Term.equals (w.valueOf (.ref x)) sample.tuple).Over k :=
        .binary (.value hw (.ref hx)) (hsample.tuple.mono hk)
      exact .nary (List.forall_mem_cons.mpr ⟨hclaim.mono hk, List.forall_mem_singleton.mpr hequal⟩)
  simp only [pure_bind]
  split
  · exact hvalue (w := binaryInts) (by decide)
  · split
    · exact hvalue (w := ternaryInts) (by decide)
    · exact hdone (Nat.le_refl i) ⟨hsample.vars, hclaim⟩

theorem stepwise_emptiness {expr : String} (h : Stepwise given free n encoding Encoded.Over) :
    Stepwise given free n (emptiness expr encoding) Encoded.Over := by
  refine .bind (stepwise_relation h) fun k set hk hset => ?_
  refine .bind (.sortOf hset.term) fun j sort hj hsort => ?_
  split
  · refine .bind (stepwise_specimen hsort) fun i sample hi hsample => ?_
    have hnot : (Term.not (.member sample.tuple set.term)).Over i :=
      .unary (.binary hsample.tuple (hset.term.mono (hj.trans hi)))
    refine .bind (.quantify hsample.vars hnot) fun _ t _ ht => .pure fun _ hk => ?_
    exact Encoded.over_plain (ht.mono hk)
  · refine .pure fun _ hi => (hset.mono (hj.trans hi)).map fun ht => ?_
    exact .binary ht (.emptySet hsort)

theorem stepwise_unaryExpr (hv : v.Over n) {op : Relational.UnaryOp} {arg : Expr}
    (h : Stepwise given free n encoding Encoded.Over) :
    Stepwise given free n (unaryExpr v op arg encoding) Encoded.Over := by
  cases op with
  | not => exact stepwise_negation h
  | closure | transpose =>
    refine .bind (stepwise_binaryRelation h) fun _ _ _ he => .pure fun _ hk => ?_
    exact (he.mono hk).map fun ht => .unary ht
  | reflexiveClosure =>
    refine .bind (stepwise_binaryRelation h) fun _ _ hk he => .pure fun _ hj => ?_
    exact (he.mono hj).map fun ht => .binary (.unary ht) (.ref (hv.mono (hk.trans hj)).iden)
  | toInt | toSigned => exact h
  | card => exact .unsupported
  | no => exact stepwise_emptiness h
  | some => exact stepwise_witnessed .binary h
  | one =>
    show Stepwise given free n (witnessed (v.model.render arg)
      (fun tuple set => .equals (.singleton tuple) set) encoding) Encoded.Over
    exact stepwise_witnessed (fun ha hb => .binary (.unary ha) hb) h
  | lone =>
    show Stepwise given free n (witnessed (v.model.render arg)
      (fun tuple set => .subset set (.singleton tuple)) encoding) Encoded.Over
    exact stepwise_witnessed (fun ha hb => .binary hb (.unary ha)) h

theorem stepwise_intValue {e : Expr} (h : Stepwise given free n encoding Encoded.Over) :
    Stepwise given free n (intValue v e encoding) Encoded.Over := by
  unfold intValue
  split
  · exact .pure fun _ _ => Encoded.over_plain .int
  · refine .bind (stepwise_relation h) fun k set hk hset => ?_
    refine .bind (.sortOf hset.term) fun j sort hj hsort => ?_
    split
    · have hunary : unaryInts ∈ intSorts := by decide
      refine .bind (.freshVariable (encodable_named hunary)) fun i x hi hx => .pure fun i' hi' => ?_
      have hset := hset.mono ((hj.trans hi).trans hi')
      have hx := Nat.lt_of_lt_of_le hx hi'
      have hvalue : (unaryIntValue (.ref x)).Over i' := .value hunary (.ref hx)
      refine ⟨.binary .int hvalue, List.forall_mem_append.mpr ⟨hset.witnesses, ?_⟩⟩
      exact List.forall_mem_singleton.mpr
        ⟨List.forall_mem_singleton.mpr hx, .binary (.unary hvalue) hset.term⟩
    · exact .unsupported

/-! ## Connectives -/

theorem stepwise_conjunction {operands : List (Encoder Encoded)}
    (h : ∀ m ∈ operands, Stepwise given free n m Encoded.Over) :
    Stepwise given free n (conjunction operands) Encoded.Over := by
  refine .bind (.mapM h fun hjk he => he.mono hjk) fun k es hk hes => ?_
  have hclosed : Encoded.Over k
      ⟨conjNontrivial (es.map Encoded.term), es.flatMap Encoded.witnesses⟩ := by
    refine ⟨Term.over_conjNontrivial (List.forall_mem_map.mpr fun e he => (hes e he).term), ?_⟩
    intro w hw
    obtain ⟨e, he, hw⟩ := List.mem_flatMap.mp hw
    exact (hes e he).witnesses w hw
  exact .bind (stepwise_close hclosed) fun _ _ _ ht => .pure fun _ hj =>
    Encoded.over_plain (ht.mono hj)

theorem stepwise_disjunction {operands : List (Encoder Encoded)}
    (h : ∀ m ∈ operands, Stepwise given free n m Encoded.Over) :
    Stepwise given free n (disjunction operands) Encoded.Over := by
  have hall : Stepwise given free n (operands.mapM formula) fun k ts => ∀ t ∈ ts, t.Over k :=
    .mapM (fun m hm => stepwise_formula (h m hm)) fun hjk ht => ht.mono hjk
  exact .bind hall fun _ _ _ hts => .pure fun _ hj =>
    Encoded.over_plain ((Term.over_disj hts).mono hj)

theorem stepwise_connective {build : Term → Term → Term}
    (hbuild : ∀ {k : Nat} {a b : Term}, a.Over k → b.Over k → (build a b).Over k)
    (hl : Stepwise given free n lhs Encoded.Over) (hr : Stepwise given free n rhs Encoded.Over) :
    Stepwise given free n (connective lhs rhs build) Encoded.Over := by
  refine .bind (stepwise_formula hl) fun k a hk ha => ?_
  refine .bind (stepwise_formula (hr.mono hk)) fun j b hj hb => .pure fun i hi => ?_
  exact Encoded.over_plain (hbuild (ha.mono (hj.trans hi)) (hb.mono hi))

theorem stepwise_binaryExpr {op : Relational.BinaryOp} {a b : Expr}
    {conjuncts : List (Encoder Encoded)} (hl : Stepwise given free n lhs Encoded.Over)
    (hr : Stepwise given free n rhs Encoded.Over)
    (hconjuncts : ∀ m ∈ conjuncts, Stepwise given free n m Encoded.Over) :
    Stepwise given free n (binaryExpr v op a b lhs rhs conjuncts) Encoded.Over := by
  cases op with
  | join => exact stepwise_joinRelations hl hr
  | union | intersection | difference | product | equals | inside =>
    exact stepwise_setOperation .binary hl hr
  | notEquals | notInside => exact stepwise_negation (stepwise_setOperation .binary hl hr)
  | and => exact stepwise_conjunction hconjuncts
  | or =>
    exact stepwise_disjunction (List.forall_mem_cons.mpr ⟨hl, List.forall_mem_singleton.mpr hr⟩)
  | implies | iff => exact stepwise_connective .binary hl hr
  | lt | le | gt | ge => exact stepwise_both .binary (stepwise_intValue hl) (stepwise_intValue hr)

/-! ## Cardinalities -/

theorem stepwise_freshElements {sort : TermSort} (hs : sort.encodable = true) (count : Nat) :
    Stepwise given free n (freshElements sort count) fun k ts => ∀ t ∈ ts, t.Over k := by
  induction count generalizing n with
  | zero => exact .pure fun _ _ => List.forall_mem_nil _
  | succ count ih =>
    refine .bind (.freshElement hs) fun k x hk hx => .bind ih fun j ts hj hts => .pure fun i hi => ?_
    exact List.forall_mem_cons.mpr ⟨.ref (Nat.lt_of_lt_of_le hx (hj.trans hi)),
      fun t ht => (hts t ht).mono hi⟩

theorem stepwise_distinguish {ts : List Term} {pairwise : Bool} (hts : ∀ t ∈ ts, t.Over n) :
    Stepwise given free n (distinguish pairwise ts) fun _ _ => True := by
  unfold distinguish
  split
  · exact .bind (.distinct hts) fun _ _ _ ht => .assertTerm ht
  · exact .pure fun _ _ => trivial

theorem stepwise_gather {ts : List Term} {set : TermSort} (hs : set.encodable = true)
    (hts : ∀ t ∈ ts, t.Over n) : Stepwise given free n (gather set ts) Term.Over := by
  refine .bind (.freshSet hs) fun k x hk hx => ?_
  have hsingle : ∀ t ∈ ts.map Term.singleton, t.Over k := List.forall_mem_map.mpr
    fun t ht => .unary ((hts t ht).mono hk)
  refine .bind (.unionAll hsingle) fun j u hj hu => ?_
  have hx : (Term.ref x).Over j := .ref (Nat.lt_of_lt_of_le hx hj)
  exact .bind (.assertTerm (.binary hx hu)) fun _ _ hi _ => .pure fun _ hi' =>
    hx.mono (hi.trans hi')

theorem stepwise_enumerate {count : Nat} {element set : TermSort} {pairwise : Bool}
    (he : element.encodable = true) (hs : set.encodable = true) :
    Stepwise given free n (enumerate count element set pairwise) Term.Over := by
  rw [enumerate_eq]
  split
  · exact .unsupported
  · refine .bind (stepwise_freshElements he count) fun k ts hk hts => ?_
    exact .bind (stepwise_distinguish hts) fun j _ hj _ =>
      stepwise_gather hs fun t ht => (hts t ht).mono hj

theorem stepwise_encodeBound {sort element : TermSort} {bound : CountBound} (ht : t.Over n)
    (hs : sort.encodable = true) (he : element.encodable = true) :
    Stepwise given free n (encodeBound t sort element bound) Term.Over := by
  have hempty {k : Nat} (hk : n ≤ k) : (Term.equals t (.emptySet sort)).Over k :=
    .binary (ht.mono hk) (.emptySet hs)
  unfold encodeBound
  split
  · split
    · exact .pure fun _ _ => .bool
    · split
      · exact .pure fun _ hk => hempty hk
      · exact .bind (stepwise_enumerate he hs) fun _ _ hk hu => .pure fun _ hj =>
          .binary (ht.mono (hk.trans hj)) (hu.mono hj)
  · split
    · exact .pure fun _ _ => .bool
    · split
      · exact .pure fun _ hk => hempty hk
      · exact .bind (stepwise_enumerate he hs) fun _ _ hk hu => .pure fun _ hj =>
          .binary (ht.mono (hk.trans hj)) (hu.mono hj)
  · split
    · exact .pure fun _ _ => .bool
    · exact .bind (stepwise_enumerate he hs) fun _ _ hk hu => .pure fun _ hj =>
        .binary (hu.mono hj) (ht.mono (hk.trans hj))
  · exact .pure fun _ _ => .bool

theorem stepwise_countComparison {expr : String} {pos : Position} {c : Comparison} {count : Int}
    (h : Stepwise given free n encoding Encoded.Over) :
    Stepwise given free n (countComparison expr pos c count encoding) Encoded.Over := by
  unfold countComparison
  split
  · exact .unsupported
  · split
    · refine .bind h fun k set hk hset => .bind (.sortOf hset.term) fun j sort hj hsort => ?_
      split
      · exact .unsupported
      · rename_i element he
        have helement := encodable_of_element? hsort he
        refine .bind (stepwise_encodeBound (hset.term.mono hj) hsort helement) fun i u hi hu => ?_
        exact .pure fun _ hi' => ⟨hu.mono hi', (hset.mono ((hj.trans hi).trans hi')).witnesses⟩
    · exact .unsupported

theorem stepwise_cardinality {expr : String} {pos : Position} {c : Comparison}
    {left right : Option (Encoder Encoded)} {leftLiteral rightLiteral : Option Int}
    (hl : ∀ m, left = some m → Stepwise given free n m Encoded.Over)
    (hr : ∀ m, right = some m → Stepwise given free n m Encoded.Over) :
    Stepwise given free n (cardinality expr pos c left right leftLiteral rightLiteral)
      Encoded.Over := by
  unfold cardinality
  split
  · exact stepwise_countComparison (hl _ rfl)
  · split
    · exact stepwise_countComparison (hr _ rfl)
    · exact .unsupported

/-! ## Quantifiers -/

/-- The names are in scope or free. -/
def Sees (free : String → Prop) (scope : Scope) (names : List String) : Prop :=
  ∀ x ∈ names, x ∈ scope.map Prod.fst ∨ free x

theorem stepwise_bindNames {names : List String} {scope : Scope} (ht : t.Over n)
    (hscope : ∀ entry ∈ scope, entry.2.index < n) :
    Stepwise given free n (bindNames t names scope) fun k b =>
      b.Over k ∧ ∀ x, x ∈ names ∨ x ∈ scope.map Prod.fst → x ∈ b.scope.map Prod.fst := by
  induction names generalizing n scope with
  | nil =>
    refine .pure fun k hk => ⟨⟨List.forall_mem_nil _, List.forall_mem_nil _, ?_⟩, ?_⟩
    · exact fun entry he => Nat.lt_of_lt_of_le (hscope entry he) hk
    · exact fun x hx => hx.resolve_left (List.not_mem_nil)
  | cons name names ih =>
    refine .bind (.freshVariable (by decide)) fun k x hk hx => ?_
    refine .bind (.mkTuple (List.forall_mem_singleton.mpr (.ref hx))) fun j tuple hj htuple => ?_
    have hx := Nat.lt_of_lt_of_le hx hj
    have hentries : ∀ entry ∈ (name, x) :: scope, entry.2.index < j :=
      List.forall_mem_cons.mpr ⟨hx, fun entry he =>
        Nat.lt_of_lt_of_le (hscope entry he) (hk.trans hj)⟩
    refine .bind (ih (ht.mono (hk.trans hj)) hentries) fun i b hi hb => .pure fun i' hi' => ?_
    have hij := hi.trans hi'
    have hguard : (Term.member tuple t).Over i' :=
      .binary (htuple.mono hij) (ht.mono ((hk.trans hj).trans hij))
    have hover := hb.1.mono hi'
    refine ⟨⟨List.forall_mem_cons.mpr ⟨Nat.lt_of_lt_of_le hx hij, hover.vars⟩,
      List.forall_mem_cons.mpr ⟨hguard, hover.guards⟩, hover.scope⟩, fun y hy => hb.2 y ?_⟩
    simp only [List.mem_cons, List.map_cons] at hy ⊢
    tauto

theorem stepwise_boundSet {expr : String} (h : Stepwise given free n encoding Encoded.Over) :
    Stepwise given free n (boundSet expr encoding) Term.Over := by
  refine .bind (stepwise_relation h) fun k set hk hset => .bind (.sortOf hset.term) fun j _ hj _ => ?_
  split
  · exact .pure fun _ hi => hset.term.mono (hj.trans hi)
  · exact .unsupported

theorem over_zipWith {xs ys : List DeclId} (hx : ∀ x ∈ xs, x.index < n)
    (hy : ∀ y ∈ ys, y.index < n) :
    ∀ t ∈ List.zipWith (fun x y => Term.equals (.ref x) (.ref y)) xs ys, t.Over n := by
  intro t ht
  obtain ⟨i, hi, rfl⟩ := List.mem_iff_getElem.mp ht
  rw [List.getElem_zipWith]
  exact .binary (.ref (hx _ (List.getElem_mem _))) (.ref (hy _ (List.getElem_mem _)))

/-- A quantifier draws its variables and encodes its body, twice if it has to. -/
theorem stepwise_quantify {q : Relational.Quantifier} {bind : Encoder Bound}
    {body : Scope → Encoder Encoded} {names : List String}
    (hbind : Stepwise given free n bind fun k b => b.Over k ∧ Sees free b.scope names)
    (hbody : ∀ {k : Nat} {b : Bound}, n ≤ k → b.Over k → Sees free b.scope names →
      Stepwise given free k (body b.scope) Encoded.Over) :
    Stepwise given free n (quantify q bind body) Encoded.Over := by
  refine .bind hbind fun k xs hk h => ?_
  obtain ⟨hxs, hsees⟩ := h
  have hfirst := hbody hk hxs hsees
  cases q with
  | all =>
    refine .bind (stepwise_formula hfirst) fun j holds hj hholds => ?_
    have hxs := hxs.mono hj
    refine .bind (.quantify hxs.vars (.binary (Term.over_conj hxs.guards) hholds)) ?_
    exact fun _ _ _ ht => .pure fun _ hi => Encoded.over_plain (ht.mono hi)
  | no =>
    refine .bind (stepwise_formula hfirst) fun j holds hj hholds => ?_
    have hxs := hxs.mono hj
    refine .bind (.quantify hxs.vars (.binary (Term.over_conj hxs.guards) (.unary hholds))) ?_
    exact fun _ _ _ ht => .pure fun _ hi => Encoded.over_plain (ht.mono hi)
  | some =>
    refine .bind hfirst fun j holds hj hholds => .pure fun i hi => ?_
    have hxs := hxs.mono (hj.trans hi)
    have hholds := hholds.mono hi
    exact ⟨hholds.term, List.forall_mem_cons.mpr
      ⟨⟨hxs.vars, Term.over_conj hxs.guards⟩, hholds.witnesses⟩⟩
  | one =>
    refine .bind hfirst fun j holds hj hholds => ?_
    refine .bind (hbind.mono (hk.trans hj)) fun i ys hi h => ?_
    obtain ⟨hys, hsees⟩ := h
    have hagain := stepwise_formula (hbody ((hk.trans hj).trans hi) hys hsees)
    refine .bind hagain fun i' again hi' hagain => ?_
    have hys := hys.mono hi'
    have hxs := hxs.mono ((hj.trans hi).trans hi')
    have hholds := hholds.mono (hi.trans hi')
    have hguards : ∀ t ∈ ys.guards ++ [again], t.Over i' :=
      List.forall_mem_append.mpr ⟨hys.guards, List.forall_mem_singleton.mpr hagain⟩
    have hsame := Term.over_conj (over_zipWith hys.vars hxs.vars)
    refine .bind (.quantify hys.vars (.binary (Term.over_conjNontrivial hguards) hsame)) ?_
    refine fun l unique hl hunique => .pure fun l' hl' => ?_
    have hxs := hxs.mono (hl.trans hl')
    have hholds := hholds.mono (hl.trans hl')
    refine ⟨Term.over_conjNontrivial (List.forall_mem_cons.mpr
      ⟨hholds.term, List.forall_mem_singleton.mpr (hunique.mono hl')⟩), ?_⟩
    exact List.forall_mem_cons.mpr ⟨⟨hxs.vars, Term.over_conj hxs.guards⟩, hholds.witnesses⟩
  | lone =>
    refine .bind (stepwise_formula hfirst) fun j first hj hfirst => ?_
    refine .bind (hbind.mono (hk.trans hj)) fun i ys hi h => ?_
    obtain ⟨hys, hsees⟩ := h
    have hsecond := stepwise_formula (hbody ((hk.trans hj).trans hi) hys hsees)
    refine .bind hsecond fun i' second hi' hsecond => ?_
    have hys := hys.mono hi'
    have hxs := hxs.mono ((hj.trans hi).trans hi')
    have hfirst := hfirst.mono (hi.trans hi')
    have hguards : ∀ t ∈ xs.guards ++ [first] ++ ys.guards ++ [second], t.Over i' := by
      simp only [List.forall_mem_append, List.forall_mem_singleton]
      exact ⟨⟨⟨hxs.guards, hfirst⟩, hys.guards⟩, hsecond⟩
    have hvars : ∀ x ∈ xs.vars ++ ys.vars, x.index < i' :=
      List.forall_mem_append.mpr ⟨hxs.vars, hys.vars⟩
    have hsame := Term.over_conj (over_zipWith hxs.vars hys.vars)
    refine .bind (.quantify hvars (.binary (Term.over_conjNontrivial hguards) hsame)) ?_
    exact fun _ _ _ ht => .pure fun _ hl => Encoded.over_plain (ht.mono hl)

end Constructs

/-! ## Expressions -/

section Expressions

variable {given : List String} {free : String → Prop} {v : Vocabulary} {n : Nat}

theorem stepwise_sigRelation (hv : v.Over n) (id : SigId) :
    Stepwise given free n (v.sigRelation id) Term.Over := by
  unfold Vocabulary.sigRelation
  split
  · rename_i d hd
    exact .pure fun _ hk => .ref ((hv.mono hk).signatures d (List.mem_of_getElem? hd))
  · exact .unsupported

theorem stepwise_fieldRelation (hv : v.Over n) (id : FieldId) :
    Stepwise given free n (v.fieldRelation id) Term.Over := by
  unfold Vocabulary.fieldRelation
  split
  · rename_i d hd
    obtain ⟨ds, hds, hd⟩ := Option.bind_eq_some_iff.mp hd
    exact .pure fun _ hk => .ref
      ((hv.mono hk).fields ds (List.mem_of_getElem? hds) d (List.mem_of_getElem? hd))
  · exact .unsupported

theorem stepwise_builtinRelation (hv : v.Over n) (b : Builtin) :
    Stepwise given free n (v.builtinRelation b) Term.Over := by
  cases b with
  | univ => exact .pure fun _ hk => .ref (hv.mono hk).univ
  | none => exact .pure fun _ hk => .ref (hv.mono hk).none
  | iden => exact .pure fun _ hk => .ref (hv.mono hk).iden
  | int => exact .unsupported

theorem stepwise_plain {m : Encoder Term} (h : Stepwise given free n m Term.Over) :
    Stepwise given free n (do return ⟨← m, []⟩) Encoded.Over :=
  .bind h fun _ _ _ ht => .pure fun _ hk => Encoded.over_plain (ht.mono hk)

theorem Sees.left {scope : Scope} {xs ys : List String} (h : Sees free scope (xs ++ ys)) :
    Sees free scope xs := fun x hx => h x (List.mem_append_left _ hx)

theorem Sees.right {scope : Scope} {xs ys : List String} (h : Sees free scope (xs ++ ys)) :
    Sees free scope ys := fun x hx => h x (List.mem_append_right _ hx)

mutual
theorem stepwise_encode : ∀ {e : Expr} {scope : Scope} {pos : Position} {n : Nat}, v.Over n →
    (∀ entry ∈ scope, entry.2.index < n) → Sees free scope e.free →
      Stepwise given free n (encode v e scope pos) Encoded.Over
  | .sig id, scope, pos, n, hv, _, _ => by
    rw [encode]
    exact stepwise_plain (stepwise_sigRelation hv id)
  | .field id, scope, pos, n, hv, _, _ => by
    rw [encode]
    exact stepwise_plain (stepwise_fieldRelation hv id)
  | .builtin b, scope, pos, n, hv, _, _ => by
    rw [encode]
    exact stepwise_plain (stepwise_builtinRelation hv b)
  | .var name, scope, pos, n, _, hscope, hfree => by
    rw [encode]
    cases hid : scope.lookup name with
    | some id =>
      obtain ⟨_, _, rfl, _⟩ := List.lookup_eq_some_iff.mp hid
      have hid : id.index < n := hscope (name, id) (by simp)
      exact .pure fun _ hk => Encoded.over_plain (.ref (Nat.lt_of_lt_of_le hid hk))
    | none =>
      rcases hfree name (List.mem_singleton_self name) with hname | hname
      · obtain ⟨id, hid', _⟩ := exists_lookup hname
        rw [hid] at hid'
        cases hid'
      · exact .unbound hname
  | .int k, scope, pos, n, _, _, _ => by
    rw [encode]
    refine .bind (.mkTuple (List.forall_mem_singleton.mpr .int)) fun _ _ _ ht => ?_
    exact .pure fun _ hk => Encoded.over_plain (.unary (ht.mono hk))
  | .unary op e, scope, pos, n, hv, hscope, hfree => by
    rw [encode]
    exact stepwise_unaryExpr hv (stepwise_encode hv hscope hfree)
  | .binary op a b, scope, pos, n, hv, hscope, hfree => by
    rw [Expr.free] at hfree
    have ha (pos : Position) : Stepwise given free n (encode v a scope pos) Encoded.Over :=
      stepwise_encode hv hscope hfree.left
    have hb (pos : Position) : Stepwise given free n (encode v b scope pos) Encoded.Over :=
      stepwise_encode hv hscope hfree.right
    have hplain : Stepwise given free n (binaryExpr v op a b (encode v a scope .nested)
        (encode v b scope .nested) [encode v a scope pos, encode v b scope pos]) Encoded.Over :=
      stepwise_binaryExpr (ha .nested) (hb .nested)
        (List.forall_mem_cons.mpr ⟨ha pos, List.forall_mem_singleton.mpr (hb pos)⟩)
    rw [encode]
    split
    · exact hplain
    · dsimp only
      split
      · exact stepwise_cardinality (fun _ h => stepwise_encodeCounted hv hscope hfree.left h)
          fun _ h => stepwise_encodeCounted hv hscope hfree.right h
      · exact hplain
  | .list .and es, scope, pos, n, hv, hscope, hfree => by
    rw [encode]
    exact stepwise_conjunction (stepwise_encodeAll hv hscope hfree)
  | .list .or es, scope, pos, n, hv, hscope, hfree => by
    rw [encode]
    exact stepwise_disjunction (stepwise_encodeAll hv hscope hfree)
  | .quantified q bs body, scope, pos, n, hv, hscope, hfree => by
    rw [encode]
    exact stepwise_quantify (stepwise_encodeBindings hv hscope hfree) fun hk hb hbody =>
      stepwise_encode (hv.mono hk) hb.scope hbody

theorem stepwise_encodeCounted : ∀ {e : Expr} {scope : Scope} {n : Nat} {m : Encoder Encoded},
    v.Over n → (∀ entry ∈ scope, entry.2.index < n) → Sees free scope e.free →
      encodeCounted v e scope = some m → Stepwise given free n m Encoded.Over
  | .unary op e, scope, n, m, hv, hscope, hfree, h => by
    cases op with
    | toInt | toSigned =>
      rw [encodeCounted] at h
      exact stepwise_encodeCounted (e := e) hv hscope hfree h
    | card =>
      rw [encodeCounted] at h
      obtain rfl := Option.some.inj h
      exact stepwise_relation (stepwise_encode (e := e) hv hscope hfree)
    | _ => simp [encodeCounted] at h
  | .sig _, _, _, _, _, _, _, h | .field _, _, _, _, _, _, _, h | .builtin _, _, _, _, _, _, _, h
  | .var _, _, _, _, _, _, _, h | .int _, _, _, _, _, _, _, h | .binary .., _, _, _, _, _, _, h
  | .list .., _, _, _, _, _, _, h | .quantified .., _, _, _, _, _, _, h => by
    simp [encodeCounted] at h

theorem stepwise_encodeAll : ∀ {es : List Expr} {scope : Scope} {pos : Position} {n : Nat},
    v.Over n → (∀ entry ∈ scope, entry.2.index < n) → Sees free scope (freeAll es) →
      ∀ m ∈ encodeAll v es scope pos, Stepwise given free n m Encoded.Over
  | [], _, _, _, _, _, _ => by
    rw [encodeAll]
    exact List.forall_mem_nil _
  | e :: es, scope, pos, n, hv, hscope, hfree => by
    rw [freeAll] at hfree
    rw [encodeAll]
    exact List.forall_mem_cons.mpr ⟨stepwise_encode hv hscope hfree.left,
      stepwise_encodeAll hv hscope hfree.right⟩

theorem stepwise_encodeBindings : ∀ {bs : List (Binding Expr)} {scope : Scope} {n : Nat}
    {rest : List String}, v.Over n → (∀ entry ∈ scope, entry.2.index < n) →
      Sees free scope (freeBelow bs rest) →
      Stepwise given free n (encodeBindings v bs scope) fun k b =>
        b.Over k ∧ Sees free b.scope rest
  | [], scope, n, rest, _, hscope, hfree => by
    rw [encodeBindings]
    refine .pure fun k hk => ⟨⟨List.forall_mem_nil _, List.forall_mem_nil _, ?_⟩, hfree⟩
    exact fun entry he => Nat.lt_of_lt_of_le (hscope entry he) hk
  | b :: bs, scope, n, rest, hv, hscope, hfree => by
    rw [freeBelow] at hfree
    rw [encodeBindings]
    refine .bind (stepwise_boundSet (stepwise_encode hv hscope hfree.left)) fun k set hk hset => ?_
    have hentries : ∀ entry ∈ scope, entry.2.index < k :=
      fun entry he => Nat.lt_of_lt_of_le (hscope entry he) hk
    refine .bind (stepwise_bindNames hset hentries) fun j first hj h => ?_
    obtain ⟨hfirst, hnames⟩ := h
    have hsees : Sees free first.scope (freeBelow bs rest) := by
      intro x hx
      by_cases hb : x ∈ b.names
      · exact .inl (hnames x (.inl hb))
      · rcases hfree.right x (List.mem_filter.mpr ⟨hx, by simpa using hb⟩) with hx | hx
        · exact .inl (hnames x (.inr hx))
        · exact .inr hx
    refine .bind (stepwise_encodeBindings (hv.mono (hk.trans hj)) hfirst.scope hsees)
      fun i last hi h => .pure fun i' hi' => ⟨?_, h.2⟩
    have hfirst := hfirst.mono (hi.trans hi')
    have hlast := h.1.mono hi'
    exact ⟨List.forall_mem_append.mpr ⟨hfirst.vars, hlast.vars⟩,
      List.forall_mem_append.mpr ⟨hfirst.guards, hlast.guards⟩, hlast.scope⟩
end

end Expressions

end Encoding

end TupleLogic
