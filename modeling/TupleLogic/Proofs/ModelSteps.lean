import TupleLogic.Proofs.EncodingSteps
import TupleLogic.Proofs.ModelGrounding

/-! What the encoding of a model does, step by step. The built-in declarations are
the same for every model. All that follows is made of the steps of
`TupleLogic.Proofs.EncodingSteps`: relations are declared under the names of the
model's signatures and fields, and only variables that are free in a fact are
reported as unbound. -/

namespace TupleLogic.Encoding

open Relational Encoder

section Structure

variable {given : List String} {free : String → Prop} {v : Vocabulary} {n : Nat}

/-! ## Signatures -/

theorem stepwise_sigLabel (id : SigId) :
    Stepwise given free n (sigLabel v id) fun _ _ => True := by
  unfold sigLabel
  split
  · exact .pure fun _ _ => trivial
  · exact .unsupported

theorem stepwise_assertFact (hv : v.Over n) {name : String} {body : Expr}
    (hfree : ∀ x ∈ body.free, free x) :
    Stepwise given free n (assertFact v name body) fun _ _ => True := by
  have hbody : Stepwise given free n (encode v body [] .top) Encoded.Over :=
    stepwise_encode hv (List.forall_mem_nil _) fun x hx => .inr (hfree x hx)
  exact .bind (stepwise_formula hbody) fun _ _ _ ht => .assertTerm ht

/-- A signature is related to its parent, whose label is part of the name. -/
theorem stepwise_assertRelated (hv : v.Over n) {name : String → Option String} {t : Term}
    (ht : t.Over n) {op : BinaryOp} (parent : SigId) : Stepwise given free n (do
      let label ← sigLabel v parent
      let whole ← v.sigRelation parent
      assertTerm (name label) (.binary op t whole)) fun _ _ => True := by
  refine .bind (stepwise_sigLabel parent) fun k _ hk _ => ?_
  refine .bind (stepwise_sigRelation (hv.mono hk) parent) fun j whole hj hwhole => ?_
  exact .assertTerm (.binary (ht.mono (hk.trans hj)) hwhole)

theorem stepwise_assertParent (hv : v.Over n) (id : SigId) (s : Signature) :
    Stepwise given free n (assertParent v id s) fun _ _ => True := by
  refine .bind (stepwise_sigRelation hv id) fun k t hk ht => ?_
  have hv := hv.mono hk
  split
  · exact .assertTerm (.binary ht (.ref hv.univ))
  · exact stepwise_assertRelated hv ht _
  · split
    · exact stepwise_assertRelated hv ht _
    · exact stepwise_assertRelated hv ht _

theorem stepwise_assertAbstract (hv : v.Over n) (id : SigId) (s : Signature) :
    Stepwise given free n (assertAbstract v id s) fun _ _ => True := by
  unfold assertAbstract
  split
  · refine .bind (stepwise_sigRelation hv id) fun k t hk ht => ?_
    have hall : Stepwise given free k ((v.model.children id).mapM v.sigRelation)
        fun k ts => ∀ t ∈ ts, t.Over k :=
      .mapM (fun child _ => stepwise_sigRelation (hv.mono hk) child) fun hjk h => h.mono hjk
    refine .bind hall fun j children hj hchildren => ?_
    split
    · refine .bind (.unionAll hchildren) fun i u hi hu => ?_
      exact .assertTerm (.binary (ht.mono (hj.trans hi)) hu)
    · exact .pure fun _ _ => trivial
  · exact .pure fun _ _ => trivial

theorem stepwise_assertMark (hv : v.Over n) (id : SigId) (s : Signature) (mark : Mark)
    (op : Relational.UnaryOp) :
    Stepwise given free n (assertMark v id s mark op) fun _ _ => True := by
  unfold assertMark
  split
  · exact stepwise_assertFact hv (List.forall_mem_nil _)
  · exact .pure fun _ _ => trivial

theorem Stepwise.seq {α : Type} {a : Encoder Unit} {b : Encoder α} {post : Nat → α → Prop}
    (ha : Stepwise given free n a fun _ _ => True) (hb : Stepwise given free n b post) :
    Stepwise given free n (do a; b) post := .bind ha fun _ _ hk _ => hb.mono hk

theorem stepwise_assertSignature (hv : v.Over n) (id : SigId) (s : Signature) :
    Stepwise given free n (assertSignature v id s) fun _ _ => True :=
  (stepwise_assertParent hv id s).seq <| (stepwise_assertAbstract hv id s).seq <|
    (stepwise_assertMark hv id s .one .one).seq <|
      (stepwise_assertMark hv id s .lone .lone).seq (stepwise_assertMark hv id s .some .some)

theorem encodable_unaryRelation : unaryRelation.encodable = true := by decide

theorem stepwise_assertDisjointPair (hv : v.Over n) (a b : SigId) :
    Stepwise given free n (assertDisjointPair v a b) fun _ _ => True := by
  refine .bind (stepwise_sigLabel a) fun k _ hk _ => .bind (stepwise_sigLabel b) fun j _ hj _ => ?_
  have hv := hv.mono (hk.trans hj)
  refine .bind (stepwise_sigRelation hv a) fun i first hi hfirst => ?_
  refine .bind (stepwise_sigRelation (hv.mono hi) b) fun i' second hi' hsecond => ?_
  exact .assertTerm (.binary (.binary (hfirst.mono hi') hsecond) (.emptySet encodable_unaryRelation))

theorem stepwise_assertDisjoint (hv : v.Over n) (ids : List SigId) :
    Stepwise given free n (assertDisjoint v ids) fun _ _ => True := by
  induction ids with
  | nil => exact .pure fun _ _ => trivial
  | cons a rest ih => exact (Stepwise.forM fun b _ => stepwise_assertDisjointPair hv a b).seq ih

theorem stepwise_assertSignatures (hv : v.Over n) :
    Stepwise given free n (assertSignatures v) fun _ _ => True :=
  (Stepwise.forM fun entry _ => stepwise_assertSignature hv entry.1 entry.2).seq <|
    (stepwise_assertDisjoint hv _).seq <|
      Stepwise.forM fun entry _ => stepwise_assertDisjoint hv (v.model.children entry.1)

/-! ## Fields -/

theorem stepwise_columnRelation (hv : v.Over n) (c : Column) :
    Stepwise given free n (columnRelation v c) Term.Over := by
  cases c with
  | sig id => exact stepwise_sigRelation hv id
  | univ => exact .pure fun _ hk => .ref (hv.mono hk).univ
  | int => exact .unsupported

theorem encodable_columnSort (c : Column) : (columnSort c).encodable = true := by
  cases c <;> rfl

theorem stepwise_foldlM (hv : v.Over n) {cs : List Column} {t : Term} (ht : t.Over n) :
    Stepwise given free n (cs.foldlM (fun acc c => do return .product acc (← columnRelation v c)) t)
      Term.Over := by
  induction cs generalizing n t with
  | nil => exact .pure fun _ hk => ht.mono hk
  | cons c cs ih =>
    rw [List.foldlM_cons]
    refine .bind (.bind (stepwise_columnRelation hv c) fun k u hk hu => ?_) fun j t hj ht =>
      ih (hv.mono hj) ht
    exact .pure fun _ hj => .binary (ht.mono (hk.trans hj)) (hu.mono hj)

theorem stepwise_productTyping (hv : v.Over n) {owner t : Term} (howner : owner.Over n)
    (ht : t.Over n) (cs : List Column) :
    Stepwise given free n (productTyping v owner t cs) Term.Over :=
  .bind (stepwise_foldlM hv howner) fun _ _ hk hu => .pure fun _ hj =>
    .binary (ht.mono (hk.trans hj)) (hu.mono hj)

/-- A variable, and the guard that an atom has. -/
def ColumnOver (n : Nat) (c : DeclId × Option Term) : Prop :=
  c.1.index < n ∧ ∀ t, c.2 = some t → t.Over n

theorem stepwise_typedColumn (hv : v.Over n) (c : Column) :
    Stepwise given free n (typedColumn v c) ColumnOver := by
  refine .bind (.freshVariable (encodable_columnSort c)) fun k x hk hx => ?_
  split
  · refine .pure fun j hj => ⟨Nat.lt_of_lt_of_le hx hj, fun t ht => ?_⟩
    cases ht
  · refine .bind (.mkTuple (List.forall_mem_singleton.mpr (.ref hx))) fun j tuple hj htuple => ?_
    refine .bind (stepwise_columnRelation (hv.mono (hk.trans hj)) c) fun i t hi ht => ?_
    refine .pure fun i' hi' => ⟨Nat.lt_of_lt_of_le hx ((hj.trans hi).trans hi'), fun u hu => ?_⟩
    obtain rfl := Option.some.inj hu
    exact .binary (htuple.mono (hi.trans hi')) (ht.mono hi')

theorem stepwise_guardedTyping (hv : v.Over n) {owner t : Term} (howner : owner.Over n)
    (ht : t.Over n) (cs : List Column) :
    Stepwise given free n (guardedTyping v owner t cs) Term.Over := by
  refine .bind (.freshVariable (by decide)) fun k x hk hx => ?_
  refine .bind (.mkTuple (List.forall_mem_singleton.mpr (.ref hx))) fun j tuple hj htuple => ?_
  have hcolumns : Stepwise given free j (cs.mapM (typedColumn v)) fun k cs => ∀ c ∈ cs, ColumnOver k c :=
    .mapM (fun c _ => stepwise_typedColumn (hv.mono (hk.trans hj)) c)
      fun hjk h => ⟨Nat.lt_of_lt_of_le h.1 hjk, fun t ht => (h.2 t ht).mono hjk⟩
  refine .bind hcolumns fun i typed hi htyped => ?_
  have hvars : ∀ y ∈ x :: typed.map Prod.fst, y.index < i := List.forall_mem_cons.mpr
    ⟨Nat.lt_of_lt_of_le hx (hj.trans hi), List.forall_mem_map.mpr fun c hc => (htyped c hc).1⟩
  have hrefs : ∀ u ∈ (x :: typed.map Prod.fst).map Term.ref, u.Over i :=
    List.forall_mem_map.mpr fun y hy => .ref (hvars y hy)
  refine .bind (.mkTuple hrefs) fun i' all hi' hall => ?_
  have hguard : (Term.member tuple owner).Over i' :=
    .binary (htuple.mono (hi.trans hi')) (howner.mono (((hk.trans hj).trans hi).trans hi'))
  have hguards : ∀ u ∈ .member tuple owner :: typed.filterMap Prod.snd, u.Over i' := by
    refine List.forall_mem_cons.mpr ⟨hguard, fun u hu => ?_⟩
    obtain ⟨c, hc, hu⟩ := List.mem_filterMap.mp hu
    exact ((htyped c hc).2 u hu).mono hi'
  exact .quantify (lt_mono hvars hi') (.binary
    (.binary hall (ht.mono (((hk.trans hj).trans hi).trans hi'))) (Term.over_conj hguards))

theorem stepwise_assertFieldTyping (hv : v.Over n) (id : SigId) (s : Signature) (index : Nat)
    (f : Field) : Stepwise given free n (assertFieldTyping v id s index f) fun _ _ => True := by
  refine .bind (stepwise_sigRelation hv id) fun k owner hk howner => ?_
  refine .bind (stepwise_fieldRelation (hv.mono hk) ⟨id, index⟩) fun j t hj ht => ?_
  have hv := hv.mono (hk.trans hj)
  have howner := howner.mono hj
  split
  · exact .bind (stepwise_guardedTyping hv howner ht f.columns) fun _ _ _ hu => .assertTerm hu
  · exact .bind (stepwise_productTyping hv howner ht f.columns) fun _ _ _ hu => .assertTerm hu

theorem stepwise_assertFieldMultiplicity (hv : v.Over n) (id : SigId) (s : Signature)
    (index : Nat) (f : Field) :
    Stepwise given free n (assertFieldMultiplicity v id s index f) fun _ _ => True := by
  unfold assertFieldMultiplicity
  split
  · exact .pure fun _ _ => trivial
  · have hfact (op : Relational.UnaryOp) (name : String) : Stepwise given free n (assertFact v name
        (.quantified .all [⟨["this"], .sig id⟩]
          (.unary op (.binary .join (.var "this") (.field ⟨id, index⟩))))) fun _ _ => True := by
      refine stepwise_assertFact hv ?_
      simp [Expr.free, freeBelow]
    split
    · exact .unsupported_bind
    · exact hfact _ _

theorem stepwise_forFields {m : Model} {f : SigId → Signature → Nat → Field → Encoder Unit}
    (hf : ∀ id s index field, Stepwise given free n (f id s index field) fun _ _ => True) :
    Stepwise given free n (forFields m f) fun _ _ => True :=
  .forM fun _ _ => .forM fun _ _ => hf _ _ _ _

end Structure

/-! ## Models -/

/-- The relations of signatures and fields are declared. -/
def declareRelations (m : Model) : Encoder Vocabulary := do
  let signatures ← m.signatures.mapM declareSignature
  let fields ← m.signatures.mapM fun s => s.fields.mapM (declareField s)
  return ⟨m, ⟨3⟩, ⟨4⟩, ⟨5⟩, signatures, fields⟩

/-- What is asserted once the relations are declared. -/
def assertModel (fieldTyping : Bool) (v : Vocabulary) : Encoder Unit := do
  assertSignatures v
  if fieldTyping then forFields v.model (assertFieldTyping v)
  forFields v.model (assertFieldMultiplicity v)
  v.model.facts.forM fun fact => assertFact v fact.name fact.body

/-- What is encoded after the built-in declarations. -/
def afterBuiltins (fieldTyping : Bool) (m : Model) : Encoder Unit :=
  declareRelations m >>= assertModel fieldTyping

theorem run_encodeModel (fieldTyping : Bool) (m : Model) (names : NameSupply) :
    (encodeModel fieldTyping m).run.run ⟨.empty, names⟩ =
      (afterBuiltins fieldTyping m).run.run ⟨builtinScript, names⟩ := by
  simp only [encodeModel, declareVocabulary, afterBuiltins, declareRelations, bind_assoc, pure_bind]
  rw [run_bind_ok (declareBuiltins_returns names)]
  rfl

section Models

variable {free : String → Prop} {n : Nat} {m : Model}

theorem stepwise_declareSignature {g : Signature} (hg : g ∈ m.signatures) :
    Stepwise m.relationNames free n (declareSignature g) fun k x => x.index < k :=
  .declareRelation (mem_relationNames hg).1 encodable_unaryRelation

theorem stepwise_declareField {g : Signature} (hg : g ∈ m.signatures) {f : Field}
    (hf : f ∈ g.fields) :
    Stepwise m.relationNames free n (declareField g f) fun k x => x.index < k := by
  have hcolumns : ∀ c ∈ fieldColumns f, c.encodable = true :=
    List.forall_mem_cons.mpr ⟨by decide, List.forall_mem_map.mpr fun c _ => encodable_columnSort c⟩
  unfold declareField
  split
  · exact .unsupported_bind
  · exact .bind (.mkRelation hcolumns) fun _ _ _ hsort =>
      .declareRelation ((mem_relationNames hg).2 f hf) hsort

theorem stepwise_declareRelations :
    Stepwise m.relationNames free 8 (declareRelations m) fun k v => v.model = m ∧ v.Over k := by
  refine .bind (.mapM (fun g hg => stepwise_declareSignature hg)
    fun hjk h => Nat.lt_of_lt_of_le h hjk) fun n signatures hn hsignatures => ?_
  have hfields : Stepwise m.relationNames free n
      (m.signatures.mapM fun s => s.fields.mapM (declareField s))
      fun k xs => ∀ ids ∈ xs, ∀ x ∈ ids, x.index < k :=
    .mapM (fun g hg => .mapM (fun f hf => stepwise_declareField hg hf)
      fun hjk h => Nat.lt_of_lt_of_le h hjk) fun hjk h => lt_mono h hjk
  refine .bind hfields fun k fields hk hfields => .pure fun j hj => ⟨rfl, ?_⟩
  have hbuiltin : ∀ i < 8, i < j := fun i hi => Nat.lt_of_lt_of_le hi ((hn.trans hk).trans hj)
  exact ⟨hbuiltin 3 (by decide), hbuiltin 4 (by decide), hbuiltin 5 (by decide),
    lt_mono hsignatures (hk.trans hj), fun ids hids => lt_mono (hfields ids hids) hj⟩

section Assertions

variable {given : List String} {v : Vocabulary} (hv : v.Over n)
  (hfree : ∀ fact ∈ v.model.facts, ∀ x ∈ fact.body.free, free x)

include hv hfree

/-- What is asserted after the signatures and the columns of fields. -/
theorem stepwise_afterTyping : Stepwise given free n (do
    forFields v.model (assertFieldMultiplicity v)
    v.model.facts.forM fun fact => assertFact v fact.name fact.body) fun _ _ => True :=
  (stepwise_forFields (stepwise_assertFieldMultiplicity hv)).seq <|
    .forM fun fact hfact => stepwise_assertFact hv (hfree fact hfact)

theorem stepwise_afterSignatures (fieldTyping : Bool) : Stepwise given free n (do
    if fieldTyping then forFields v.model (assertFieldTyping v)
    forFields v.model (assertFieldMultiplicity v)
    v.model.facts.forM fun fact => assertFact v fact.name fact.body) fun _ _ => True := by
  cases fieldTyping with
  | false => exact stepwise_afterTyping hv hfree
  | true =>
    exact (stepwise_forFields (stepwise_assertFieldTyping hv)).seq (stepwise_afterTyping hv hfree)

end Assertions

/-- After the built-in declarations a model is encoded step by step. -/
theorem stepwise_afterBuiltins (fieldTyping : Bool) :
    Stepwise m.relationNames (fun x => ∃ fact ∈ m.facts, x ∈ fact.body.free) 8
      (afterBuiltins fieldTyping m) fun _ _ => True := by
  refine .bind stepwise_declareRelations fun k v _ hk => ?_
  obtain ⟨rfl, hv⟩ := hk
  exact (stepwise_assertSignatures hv).seq <|
    stepwise_afterSignatures hv (fun fact hfact x hx => ⟨fact, hfact, hx⟩) fieldTyping

end Models

end TupleLogic.Encoding
