import TupleLogic.Proofs.CompiledScripts
import TupleLogic.Proofs.EncoderBinders

/-! What the scripts of models bind. Every assertion binds the variables that
were drawn for it, so in the end each variable of the script is bound once, by
one quantifier of one assertion, and referred to only inside of it. -/

namespace TupleLogic

namespace Term

mutual
/-- Every reference, next to the variables that are bound around it. -/
def references (bound : List DeclId) : Term → List (List DeclId × DeclId)
  | .ref id => [(bound, id)]
  | .int _ | .bool _ | .emptySet _ | .fullSet _ => []
  | .unary _ a => a.references bound
  | .binary _ a b => a.references bound ++ b.references bound
  | .nary _ args | .call _ args => referencesAll bound args
  | .quantified _ vars body => body.references (vars.reverse ++ bound)
  | .ite c a b => c.references bound ++ a.references bound ++ b.references bound

def referencesAll (bound : List DeclId) : List Term → List (List DeclId × DeclId)
  | [] => []
  | t :: ts => t.references bound ++ referencesAll bound ts
end

theorem mem_referencesAll {bound : List DeclId} {ts : List Term} {r : List DeclId × DeclId}
    (h : r ∈ referencesAll bound ts) : ∃ t ∈ ts, r ∈ t.references bound := by
  induction ts with
  | nil => simp [referencesAll] at h
  | cons t ts ih =>
    rw [referencesAll, List.mem_append] at h
    rcases h with h | h
    · exact ⟨t, List.mem_cons_self, h⟩
    · obtain ⟨u, hu, h⟩ := ih h
      exact ⟨u, List.mem_cons_of_mem _ hu, h⟩

mutual
/-- What is bound around a reference is bound by the term or around it. -/
theorem references_within : ∀ (t : Term) (bound : List DeclId),
    ∀ r ∈ t.references bound, r.1 ⊆ t.binders ++ bound
  | .ref _, _ => by simp [references, binders]
  | .int _, _ | .bool _, _ | .emptySet _, _ | .fullSet _, _ => by simp [references]
  | .unary _ a, bound => by
    rw [references, binders]
    exact references_within a bound
  | .binary _ a b, bound => by
    intro r hr x hx
    rw [references, List.mem_append] at hr
    rw [binders]
    rcases hr with hr | hr
    · have ha := references_within a bound r hr hx
      grind
    · have hb := references_within b bound r hr hx
      grind
  | .nary _ args, bound | .call _ args, bound => by
    rw [references, binders]
    exact referencesAll_within args bound
  | .quantified _ vars body, bound => by
    intro r hr x hx
    rw [references] at hr
    have hbody := references_within body _ r hr hx
    rw [binders]
    grind
  | .ite c a b, bound => by
    intro r hr x hx
    rw [references, List.mem_append, List.mem_append] at hr
    rw [binders]
    rcases hr with (hr | hr) | hr
    · have hc := references_within c bound r hr hx
      grind
    · have ha := references_within a bound r hr hx
      grind
    · have hb := references_within b bound r hr hx
      grind

theorem referencesAll_within : ∀ (ts : List Term) (bound : List DeclId),
    ∀ r ∈ referencesAll bound ts, r.1 ⊆ bindersAll ts ++ bound
  | [], _ => by simp [referencesAll]
  | t :: ts, bound => by
    intro r hr x hx
    rw [referencesAll, List.mem_append] at hr
    rw [bindersAll]
    rcases hr with hr | hr
    · have ht := references_within t bound r hr hx
      grind
    · have hts := referencesAll_within ts bound r hr hx
      grind
end

end Term

namespace Encoding

open Relational Encoder
open NameSupply (variableName)

variable {v : Vocabulary} {p q : Progress}

/-- A run that adds no variables, again and again. -/
theorem settling_mapM {α β : Type} {f : α → Encoder β} {xs : List α} {post : β → Prop}
    (h : ∀ x ∈ xs, Charging (f x) (fun _ => []) post) :
    Charging (xs.mapM f) (fun _ => []) fun ys => ∀ y ∈ ys, post y := by
  intro p ys q hys
  obtain ⟨hq, hpost⟩ := charging_mapM h hys
  have hnil : ys.flatMap (fun _ => ([] : List DeclId)) = [] :=
    List.flatMap_eq_nil_iff.mpr fun _ _ => rfl
  exact ⟨hq.perm (.of_eq hnil), hpost⟩

theorem charging_sigRelation (id : SigId) :
    Charging (v.sigRelation id) (fun _ => []) fun t => t.binders = [] := by
  intro p t q h
  obtain ⟨hbinders, rfl⟩ := binders_sigRelation h
  exact ⟨.refl _, hbinders⟩

/-! ## Facts -/

theorem settles_assertFact (name : String) (body : Expr) : Settles (assertFact v name body) := by
  intro p u q h
  simp only [assertFact, returns_bind] at h
  obtain ⟨t, r, ht, h⟩ := h
  exact ⟨charges_assertTerm (charging_formula (accounted_encode body [] .top) ht).1 h, trivial⟩

/-- A formula without binders is asserted as it is. -/
theorem settles_assertPlain {name : Option String} {t : Term} (ht : t.binders = []) :
    Settles (assertTerm name t) :=
  fun _ _ _ h => ⟨charges_assertTerm (ht ▸ .refl _) h, trivial⟩

/-! ## Signatures -/

section Signatures

variable {id : SigId} {g : Signature}

theorem settles_within {relation : Term} {parent : SigId} (hrelation : relation.binders = []) :
    Settles (assertParent.within v g relation parent) := by
  intro p u q h
  simp only [assertParent.within, returns_bind] at h
  obtain ⟨label, r, hlabel, whole, r', hwhole, hassert⟩ := h
  obtain ⟨_, rfl⟩ := returns_sigLabel hlabel
  obtain ⟨hbinders, rfl⟩ := binders_sigRelation hwhole
  exact settles_assertPlain (by simp [Term.subset, Term.binders, hrelation, hbinders]) hassert

theorem settles_assertParent : Settles (assertParent v id g) := by
  intro p u q h
  obtain ⟨relation, r, hrelation, hassert⟩ := returns_bind.mp h
  obtain ⟨hbinders, rfl⟩ := binders_sigRelation hrelation
  split at hassert
  · exact settles_assertPlain (by simp [Term.subset, Term.binders, hbinders]) hassert
  · exact settles_within hbinders hassert
  · split at hassert
    · simp only [returns_bind] at hassert
      obtain ⟨label, r', hlabel, whole, r'', hwhole, hassert⟩ := hassert
      obtain ⟨_, rfl⟩ := returns_sigLabel hlabel
      obtain ⟨hbinders', rfl⟩ := binders_sigRelation hwhole
      exact settles_assertPlain (by simp [Term.equals, Term.binders, hbinders, hbinders']) hassert
    · exact settles_within hbinders hassert

theorem settles_assertAbstract : Settles (assertAbstract v id g) := by
  intro p u q h
  unfold assertAbstract at h
  split at h
  · simp only [returns_bind] at h
    obtain ⟨relation, r, hrelation, children, r', hchildren, hassert⟩ := h
    obtain ⟨hbinders, rfl⟩ := binders_sigRelation hrelation
    obtain ⟨hr', hplain⟩ := settling_mapM (fun c _ => charging_sigRelation c) hchildren
    split at hassert
    · simp only [returns_bind, returns_liftTerm] at hassert
      obtain ⟨union, _, ⟨hunion, rfl⟩, hassert⟩ := hassert
      have hunion : union.binders = [] := by
        rw [Term.binders_unionAll hunion, Term.bindersAll_eq_nil hplain]
      have hq := settles_assertPlain
        (by simp [Term.equals, Term.binders, hbinders, hunion]) hassert
      exact ⟨hr'.trans hq.1, trivial⟩
    · exact ⟨hr'.trans (settles_pure hassert).1, trivial⟩
  · exact settles_pure h

theorem settles_assertMark {mark : Mark} {op : Relational.UnaryOp} :
    Settles (assertMark v id g mark op) := by
  unfold assertMark
  split
  · exact settles_assertFact _ _
  · exact settles_pure

theorem settles_assertSignature : Settles (assertSignature v id g) :=
  settles_assertParent.seq (settles_assertAbstract.seq (settles_assertMark.seq
    (settles_assertMark.seq settles_assertMark)))

theorem settles_assertDisjointPair {a b : SigId} : Settles (assertDisjointPair v a b) := by
  intro p u q h
  simp only [assertDisjointPair, returns_bind] at h
  obtain ⟨_, r₁, hfirst, _, r₂, hsecond, t, r₃, ht, t', r₄, ht', hassert⟩ := h
  obtain ⟨_, rfl⟩ := returns_sigLabel hfirst
  obtain ⟨_, rfl⟩ := returns_sigLabel hsecond
  obtain ⟨hl, rfl⟩ := binders_sigRelation ht
  obtain ⟨hr, rfl⟩ := binders_sigRelation ht'
  exact settles_assertPlain
    (by simp [Term.equals, Term.intersection, Term.binders, hl, hr]) hassert

theorem settles_assertDisjoint (ids : List SigId) : Settles (assertDisjoint v ids) := by
  induction ids with
  | nil => exact settles_pure
  | cons a ids ih => exact (settles_forM fun b _ => settles_assertDisjointPair).seq ih

theorem settles_assertSignatures : Settles (assertSignatures v) :=
  (settles_forM fun _ _ => settles_assertSignature).seq ((settles_assertDisjoint _).seq
    (settles_forM fun _ _ => settles_assertDisjoint _))

end Signatures

/-! ## Fields -/

section Fields

variable {owner relation t : Term} {columns : List Column}

theorem binders_columnRelation {c : Column} (h : Returns (columnRelation v c) p t q) :
    t.binders = [] ∧ q = p := by
  cases c with
  | sig id => exact binders_sigRelation h
  | univ =>
    obtain ⟨rfl, rfl⟩ := returns_pure.mp h
    exact ⟨rfl, rfl⟩
  | int => exact (not_returns_unsupported h).elim

theorem binders_productBound (howner : owner.binders = [])
    (h : Returns (columns.foldlM (fun acc c => do return .product acc (← columnRelation v c)) owner)
      p t q) : t.binders = [] ∧ q = p := by
  induction columns generalizing p owner with
  | nil =>
    obtain ⟨rfl, rfl⟩ := returns_pure.mp h
    exact ⟨howner, rfl⟩
  | cons c columns ih =>
    rw [List.foldlM_cons] at h
    simp only [returns_bind, returns_pure] at h
    obtain ⟨_, r, ⟨u, _, hu, rfl, rfl⟩, hrest⟩ := h
    obtain ⟨hbinders, rfl⟩ := binders_columnRelation hu
    exact ih (by simp [Term.product, Term.binders, howner, hbinders]) hrest

theorem binders_productTyping (howner : owner.binders = []) (hrelation : relation.binders = [])
    (h : Returns (productTyping v owner relation columns) p t q) : t.binders = [] ∧ q = p := by
  obtain ⟨product, _, hproduct, h⟩ := returns_bind.mp h
  obtain ⟨rfl, rfl⟩ := returns_pure.mp h
  obtain ⟨hbinders, rfl⟩ := binders_productBound howner hproduct
  exact ⟨by simp [Term.subset, Term.binders, hrelation, hbinders], rfl⟩

theorem charging_typedColumn (c : Column) : Charging (typedColumn v c) (fun typed => [typed.1])
    fun typed => ∀ g ∈ typed.2, Term.binders g = [] := by
  intro p typed q h
  obtain ⟨x, r, hx, h⟩ := returns_bind.mp h
  obtain ⟨hr, _⟩ := charging_freshVariable hx
  split at h
  · obtain ⟨rfl, rfl⟩ := returns_pure.mp h
    exact ⟨hr, nofun⟩
  · simp only [returns_bind, returns_liftTerm, returns_pure] at h
    obtain ⟨tuple, _, ⟨htuple, rfl⟩, u, _, hu, rfl, rfl⟩ := h
    obtain ⟨hbinders, rfl⟩ := binders_columnRelation hu
    refine ⟨hr, fun g hg => ?_⟩
    rw [← Option.some.inj hg, Term.member, Term.binders, Term.binders_mkTuple_ref htuple, hbinders]
    rfl

theorem charges_guardedTyping (howner : owner.binders = []) (hrelation : relation.binders = [])
    (h : Returns (guardedTyping v owner relation columns) p t q) :
    p.script.Charges q.script t.binders := by
  simp only [guardedTyping, returns_bind, returns_liftTerm] at h
  obtain ⟨x, _, hx, single, r, ⟨hsingle, rfl⟩, typed, _, htyped, tuple, _, ⟨htuple, rfl⟩, ht,
    rfl⟩ := h
  obtain ⟨hr, _⟩ := charging_freshVariable hx
  obtain ⟨hq, htyped⟩ := charging_mapM (fun c _ => charging_typedColumn c) htyped
  have hvars : typed.map Prod.fst = typed.flatMap fun c => [c.1] := List.map_eq_flatMap
  have hrefs : Term.bindersAll ((x :: typed.map Prod.fst).map Term.ref) = [] := by
    refine Term.bindersAll_eq_nil fun u hu => ?_
    obtain ⟨y, _, rfl⟩ := List.mem_map.mp hu
    rfl
  have hguards : Term.bindersAll (typed.filterMap Prod.snd) = [] := by
    refine Term.bindersAll_eq_nil fun u hu => ?_
    obtain ⟨c, hc, hg⟩ := List.mem_filterMap.mp hu
    exact htyped c hc u hg
  rw [Term.eq_quantified ht]
  simp only [Term.implies, Term.member, Term.binders, Term.binders_conj, Term.bindersAll,
    Term.binders_mkTuple htuple, Term.binders_mkTuple_ref hsingle, hrefs, hguards, howner, hrelation,
    List.append_nil]
  rw [hvars]
  exact hr.trans hq

theorem settles_assertFieldTyping {id : SigId} {g : Signature} {index : Nat} {f : Field} :
    Settles (assertFieldTyping v id g index f) := by
  intro p u q h
  simp only [assertFieldTyping, returns_bind] at h
  obtain ⟨owner, r, howner, relation, r', hrelation, hassert⟩ := h
  obtain ⟨hplain, rfl⟩ := binders_sigRelation howner
  obtain ⟨hplain', rfl⟩ := binders_fieldRelation hrelation
  split at hassert
  · simp only [returns_bind] at hassert
    obtain ⟨t, r'', ht, hassert⟩ := hassert
    exact ⟨charges_assertTerm (charges_guardedTyping hplain hplain' ht) hassert, trivial⟩
  · simp only [returns_bind] at hassert
    obtain ⟨t, r'', ht, hassert⟩ := hassert
    obtain ⟨hbinders, rfl⟩ := binders_productTyping hplain hplain' ht
    exact settles_assertPlain hbinders hassert

theorem settles_assertFieldMultiplicity {id : SigId} {g : Signature} {index : Nat} {f : Field} :
    Settles (assertFieldMultiplicity v id g index f) := by
  intro p u q h
  unfold assertFieldMultiplicity at h
  split at h
  · exact settles_pure h
  · split at h
    · obtain ⟨_, _, hu, _⟩ := returns_bind.mp h
      exact (not_returns_unsupported hu).elim
    · exact settles_assertFact _ _ h

theorem settles_forFields {m : Model}
    {assertion : SigId → Signature → Nat → Field → Encoder Unit}
    (h : ∀ id g index f, Settles (assertion id g index f)) : Settles (forFields m assertion) :=
  settles_forM fun _ _ => settles_forM fun _ _ => h _ _ _ _

end Fields

/-! ## Models -/

theorem charging_declareRelation {name : String} {sort : TermSort} :
    Charging (declareRelation name sort) (fun _ => []) fun _ => True :=
  fun _ _ _ h => ⟨charges_declareFunction h, trivial⟩

theorem charging_declareField {g : Signature} {f : Field} :
    Charging (declareField g f) (fun _ => []) fun _ => True := by
  intro p x q h
  unfold declareField at h
  split at h
  · obtain ⟨_, _, hu, _⟩ := returns_bind.mp h
    exact (not_returns_unsupported hu).elim
  · simp only [returns_bind, returns_liftTerm] at h
    obtain ⟨sort, _, ⟨_, rfl⟩, h⟩ := h
    exact charging_declareRelation h

theorem charges_builtinScript : Script.empty.Charges builtinScript [] := by
  intro x
  have hbinders : builtinScript.binders = builtinScript.entries .variable := by decide +kernel
  rw [Script.unbound_empty, Script.unbound, hbinders, List.count_nil]
  omega

theorem charges_declareVocabulary {m : Model} {names : NameSupply}
    (h : Returns (declareVocabulary m) ⟨.empty, names⟩ v q) : Script.empty.Charges q.script [] := by
  simp only [declareVocabulary, returns_bind, returns_pure] at h
  obtain ⟨ids, r, hbuiltins, sigs, r', hsigs, fields, _, hfields, _, rfl⟩ := h
  obtain ⟨rfl, rfl⟩ := returns_declareBuiltins hbuiltins
  obtain ⟨hsigs, _⟩ := settling_mapM (fun _ _ => charging_declareRelation) hsigs
  obtain ⟨hfields, _⟩ := settling_mapM
    (fun _ _ => settling_mapM fun _ _ => charging_declareField) hfields
  exact charges_builtinScript.trans (hsigs.trans hfields)

theorem charges_encodeModel {m : Model} {names : NameSupply} {fieldTyping : Bool} {u : Unit}
    (h : Returns (encodeModel fieldTyping m) ⟨.empty, names⟩ u q) :
    Script.empty.Charges q.script [] := by
  obtain ⟨v, r, hv, h⟩ := returns_bind.mp h
  have hr := charges_declareVocabulary hv
  have hrest : Settles (do
      forFields m (assertFieldMultiplicity v)
      m.facts.forM fun fact => assertFact v fact.name fact.body) :=
    (settles_forFields fun _ _ _ _ => settles_assertFieldMultiplicity).seq
      (settles_forM fun _ _ => settles_assertFact _ _)
  obtain ⟨_, r', hsignatures, h⟩ := returns_bind.mp h
  have hr' := hr.trans (settles_assertSignatures hsignatures).1
  cases fieldTyping with
  | true =>
    have htyping : Settles (forFields m (assertFieldTyping v)) :=
      settles_forFields fun _ _ _ _ => settles_assertFieldTyping
    exact hr'.trans (htyping.seq hrest h).1
  | false => exact hr'.trans (hrest h).1

/-! ## Scripts -/

/-- Where grounded terms refer to. -/
theorem Grounded.references {s : Script} {bound : List DeclId} {t : Term}
    (h : Grounded s bound t) :
    ∀ r ∈ t.references bound, r.2 ∈ r.1 ∨ s.precedes 0 r.2 = true := by
  induction h with
  | bound hid => simp [Term.references, hid]
  | declared hid => simp [Term.references, hid]
  | int | bool | emptySet => simp [Term.references]
  | unary _ ih =>
    rw [Term.references]
    exact ih
  | binary _ _ _ iha ihb =>
    rw [Term.references]
    exact List.forall_mem_append.mpr ⟨iha, ihb⟩
  | first _ ih =>
    rw [Term.select, Term.references, Term.references]
    exact ih
  | nary _ _ ih =>
    intro r hr
    rw [Term.references] at hr
    obtain ⟨t, ht, hr⟩ := Term.mem_referencesAll hr
    exact ih t ht r hr
  | quantified _ _ _ ih =>
    rw [Term.references]
    exact ih
  | value _ _ ih =>
    intro r hr
    rw [IntSort.valueOf, Term.references] at hr
    obtain ⟨t, ht, hr⟩ := Term.mem_referencesAll hr
    rw [List.mem_singleton.mp ht] at hr
    exact ih r hr

theorem Sound.references {m : Model} {start : Nat} (hp : Sound m start p) :
    ∀ a ∈ p.script.assertions, ∀ r ∈ a.formula.references [],
      r.2 ∈ r.1 ∨ p.script.precedes 0 r.2 = true := by
  intro a ha
  rcases hp.assertions a ha with hbuiltin | hgrounded
  · have hall : ∀ a ∈ builtinScript.assertions, ∀ r ∈ a.formula.references [],
        r.2 ∈ r.1 ∨ builtinScript.precedes 0 r.2 = true := by decide +kernel
    exact fun r hr => (hall a hbuiltin r hr).imp_right (hp.builtin.precedes (Nat.le_refl 0))
  · exact hgrounded.references

/-- Only assertions bind variables. -/
theorem Sound.binders_eq {m : Model} {start : Nat} (hp : Sound m start p) :
    p.script.binders = p.script.assertions.flatMap (·.formula.binders) := by
  have hnone : p.script.arena.toList.flatMap Declaration.binders = [] := by
    refine List.flatMap_eq_nil_iff.mpr fun d hd => ?_
    obtain ⟨i, hi⟩ := List.mem_iff_getElem?.mp hd
    have hencodable := hp.encodable ((Array.getElem?_toList).symm.trans hi)
    cases d with
    | definition => cases hencodable
    | _ => rfl
  rw [Script.binders, hnone, List.nil_append]

theorem Sound.mem_of_precedes {m : Model} {start : Nat} (hp : Sound m start p) {id : DeclId}
    (h : p.script.precedes 0 id = true) :
    id ∉ p.script.entries .variable ∧ (id ∈ p.script.functions ∨ id ∈ p.script.constants) := by
  obtain ⟨d, hd, hkind⟩ := Script.exists_of_precedes h
  have hencodable := hp.encodable hd
  rw [hp.coherent.functions, hp.coherent.constants]
  simp only [Script.mem_entries, hd, Option.some.injEq, exists_eq_left']
  refine ⟨hkind, ?_⟩
  cases d with
  | function => exact .inl rfl
  | constant => exact .inr rfl
  | definition => cases hencodable
  | _ => exact absurd rfl hkind

/-- What is declared later is listed later. -/
theorem entries_of_extends {s t : Script} (h : s.Extends t) (k : Declaration.Kind) :
    ∃ new, t.entries k = s.entries k ++ new ∧ ∀ id ∈ new, s.arena.size ≤ id.index := by
  obtain ⟨n, hn⟩ := Nat.exists_eq_add_of_le h.size_le
  unfold Script.entries
  rw [hn, List.range_add, List.map_append, List.filter_append]
  refine ⟨_, congrArg (· ++ _) (List.filter_congr fun id hid => ?_), fun id hid => ?_⟩
  · obtain ⟨i, hi, rfl⟩ := List.mem_map.mp hid
    rw [h.decl (Array.getElem?_eq_getElem (List.mem_range.mp hi)),
      Array.getElem?_eq_getElem (List.mem_range.mp hi)]
  · obtain ⟨j, hj, rfl⟩ := List.mem_map.mp (List.mem_of_mem_filter hid)
    obtain ⟨i, _, rfl⟩ := List.mem_map.mp hj
    exact Nat.le_add_right _ _

/-- The variables of the built-in axiom come first. All others have names of
their own, each with its number. -/
theorem Sound.variableNames {m : Model} {start : Nat} (hp : Sound m start p) :
    ∃ drawn, (p.script.entries .variable).map p.script.nameOf = "x" :: "y" :: drawn ∧
      drawn.Nodup ∧ ∀ n ∈ drawn, ∃ k, start < k ∧ k ≤ p.names.variableCount ∧ n = variableName k := by
  obtain ⟨new, hnew, hlate⟩ := entries_of_extends hp.builtin .variable
  have hvariable : ∀ x ∈ new, ∃ name sort, p.script.arena[x.index]? = some (.variable name sort) :=
    fun x hx => Script.variable_mem_entries.mp (hnew ▸ List.mem_append_right _ hx)
  refine ⟨new.map p.script.nameOf, ?_, ?_, fun n hn => ?_⟩
  · have hbuiltin : builtinScript.entries .variable = [⟨6⟩, ⟨7⟩] := by decide +kernel
    have hx : builtinScript.arena[6]? = some (.variable "x" .atom) := rfl
    have hy : builtinScript.arena[7]? = some (.variable "y" .atom) := rfl
    rw [hnew, hbuiltin, List.map_append, List.map_cons, List.map_cons,
      Script.nameOf_eq (hp.builtin.decl hx), Script.nameOf_eq (hp.builtin.decl hy)]
    rfl
  · have hnodup : new.Nodup :=
      (List.nodup_append.mp (hnew ▸ Script.nodup_entries p.script .variable)).2.1
    refine hnodup.map_on fun x hx y hy hsame => ?_
    obtain ⟨name, sort, hd⟩ := hvariable x hx
    obtain ⟨name', sort', hd'⟩ := hvariable y hy
    rw [Script.nameOf_eq hd, Script.nameOf_eq hd'] at hsame
    obtain rfl : name = name' := hsame
    exact congrArg DeclId.mk (hp.distinct (hlate x hx) (hlate y hy) hd hd')
  · obtain ⟨x, hx, rfl⟩ := List.mem_map.mp hn
    obtain ⟨name, sort, hd⟩ := hvariable x hx
    rw [Script.nameOf_eq hd]
    exact hp.follows (hlate x hx) hd

/-- In the script of a model each variable is in the list of one quantifier of
one assertion, once. A reference to it stands below that quantifier, and every
other reference is to a function or constant. The variables that were drawn have
different names. -/
theorem encode_binds_once {m : Model} (hfits : m.LiteralsFit) {settings : Settings}
    {names names' : NameSupply} {s : Script} (h : m.encode settings names = (.ok s, names')) :
    (s.assertions.flatMap (·.formula.binders)).Nodup ∧
      (∀ x, x ∈ s.assertions.flatMap (·.formula.binders) ↔ x ∈ s.entries .variable) ∧
      (∀ a ∈ s.assertions, ∀ r ∈ a.formula.references [],
        if r.2 ∈ s.entries .variable then r.2 ∈ r.1 else r.2 ∈ s.functions ∨ r.2 ∈ s.constants) ∧
      ∃ drawn, (s.entries .variable).map s.nameOf = "x" :: "y" :: drawn ∧ drawn.Nodup ∧
        ∀ n ∈ drawn, ∃ k, (if settings.resetNames then .reset else names).variableCount < k ∧
          k ≤ names'.variableCount ∧ n = variableName k := by
  have hp := sound_of_encode hfits h
  obtain ⟨_, hrun⟩ := returns_of_encode h
  have hperm := (charges_encodeModel hrun).binders_perm
  rw [hp.binders_eq] at hperm
  refine ⟨hperm.nodup_iff.mpr (s.nodup_entries _), fun x => hperm.mem_iff, fun a ha r hr => ?_,
    hp.variableNames⟩
  rcases hp.references a ha r hr with hbound | hdeclared
  · have hvariable : r.2 ∈ s.entries .variable := by
      have hbinder := Term.references_within _ _ r hr hbound
      rw [List.append_nil] at hbinder
      exact hperm.mem_iff.mp (List.mem_flatMap.mpr ⟨a, ha, hbinder⟩)
    rwa [if_pos hvariable]
  · obtain ⟨hvariable, hlisted⟩ := hp.mem_of_precedes hdeclared
    rwa [if_neg hvariable]

/-- Here one relation has the name of a variable that is drawn, and one fact is
no formula. -/
theorem encode_binds_once_labelled : ∃ s names,
    (labelledModel "_x1").encode {} {} = (.ok s, names) ∧ (labelledModel "_x1").LiteralsFit ∧
      (s.assertions.flatMap (·.formula.binders)).Nodup ∧
      ∀ x, x ∈ s.assertions.flatMap (·.formula.binders) ↔ x ∈ s.entries .variable := by
  obtain ⟨text, names, h⟩ := compile_of_isOk
    (show ((labelledModel "_x1").compile {} {}).1.isOk by decide +kernel)
  obtain ⟨s, hs, _⟩ := compile_eq_ok h
  have hfits := literalsFit_labelledModel "_x1"
  obtain ⟨hnodup, hmem, _⟩ := encode_binds_once hfits hs
  exact ⟨s, names, hs, hfits, hnodup, hmem⟩

end Encoding

end TupleLogic
