import TupleLogic.Proofs.FactEncoding
import TupleLogic.Proofs.Satisfaction

/-! Commands that assert. Each command of a model's encoding states a condition
on instances: where its assertions hold the condition does, and where the
condition holds the constants that the command declares can be chosen such
that its assertions hold. Commands that run one after the other state all
their conditions, because later assertions leave earlier declarations alone. -/

namespace TupleLogic.Encoding

open Relational Encoder

variable {v : Vocabulary} {p q : Progress} {int : Prop}

/-- A condition on instances over any atoms. -/
abbrev Condition := (α : Type) → Instance α → Prop

/-- The assertions `new` were added, and they say that the condition holds. If
integers are involved, this is so where the integer sorts reach all of them. -/
structure Asserts (v : Vocabulary) (int : Prop) (cond : Condition) (p q : Progress)
    (new : List Assertion) : Prop where
  extension : p.script.Extends q.script
  assertions : q.script.assertions = p.script.assertions ++ new
  frame : ∀ {f : Script} {E : Type} {M N : Structure E}, q.script.Extends f →
    M.Agrees q.script.arena.size N → M.Models f new → N.Models f new
  sound : ∀ {f : Script} {α E : Type} {ι : α → E} {I : Instance α} {M : Structure E}
    [Nonempty α] [Finite α], q.script.Extends f → Interprets v f ι I M →
    (∀ id, (I.field id).Finite) → (int → Onto f M) →
    M.SortedBelow f q.script.arena.size → M.Models f new → cond α I
  complete : ∀ {f : Script} {α E : Type} {ι : α → E} {I : Instance α} {M : Structure E}
    [Nonempty α] [Finite α], q.script.Extends f → Interprets v f ι I M →
    (∀ id, (I.field id).Finite) → (int → Onto f M) → M.SortedBelow f p.script.arena.size →
    I.FactsFit v.model → cond α I →
      ∃ N, M.Agrees p.script.arena.size N ∧ N.SortedBelow f q.script.arena.size ∧ N.Models f new

/-- Every run of the command asserts that the condition holds. -/
def States (v : Vocabulary) (int : Prop) (cond : Condition) (command : Encoder Unit) : Prop :=
  ∀ p u q, Declared v p.script → Returns command p u q → ∃ new, Asserts v int cond p q new

/-! ## Sequences -/

theorem asserts_nothing {cond : Condition} (h : ∀ α I, cond α I) : Asserts v int cond p p [] where
  extension := .refl _
  assertions := by rw [List.append_nil]
  frame _ _ _ := nofun
  sound _ _ _ _ _ _ := h _ _
  complete _ _ _ _ hsorted _ _ := ⟨_, .refl _ _, hsorted, nofun⟩

theorem Asserts.trans {c d : Condition} {s : Progress} {new new' : List Assertion}
    (hv : Declared v p.script) (h : Asserts v int c p s new) (h' : Asserts v int d s q new') :
    Asserts v int (fun α I => c α I ∧ d α I) p q (new ++ new') where
  extension := h.extension.trans h'.extension
  assertions := by rw [h'.assertions, h.assertions, List.append_assoc]
  frame hf hMN hM := by
    rw [Structure.models_append] at hM ⊢
    exact ⟨h.frame (h'.extension.trans hf) (hMN.mono h'.extension.size_le) hM.1,
      h'.frame hf hMN hM.2⟩
  sound hf hM hfin honto hsorted hnew := by
    rw [Structure.models_append] at hnew
    exact ⟨h.sound (h'.extension.trans hf) hM hfin honto (hsorted.mono h'.extension.size_le) hnew.1,
      h'.sound hf hM hfin honto hsorted hnew.2⟩
  complete {f α E ι I M _ _} hf hM hfin honto hsorted hfits hc := by
    have hsf := h'.extension.trans hf
    have hpf := h.extension.trans hsf
    obtain ⟨N, hMN, hN, hnew⟩ := h.complete hsf hM hfin honto hsorted hfits hc.1
    obtain ⟨K, hNK, hK, hnew'⟩ := h'.complete hf (hM.agrees hv hpf hMN) hfin
      (fun hi => (honto hi).agrees hv hpf hMN) hN hfits hc.2
    refine ⟨K, hMN.trans (hNK.mono h.extension.size_le), hK, ?_⟩
    rw [Structure.models_append]
    exact ⟨h.frame hsf hNK hnew, hnew'⟩

theorem Asserts.congr {c d : Condition} {new : List Assertion} (h : Asserts v int c p q new)
    (hcd : ∀ α (I : Instance α), c α I ↔ d α I) : Asserts v int d p q new where
  extension := h.extension
  assertions := h.assertions
  frame := h.frame
  sound hf hM hfin honto hsorted hnew := (hcd _ _).mp (h.sound hf hM hfin honto hsorted hnew)
  complete hf hM hfin honto hsorted hfits hd :=
    h.complete hf hM hfin honto hsorted hfits ((hcd _ _).mpr hd)

theorem states_pure {cond : Condition} (h : ∀ α I, cond α I) : States v int cond (pure ()) := by
  intro p u q _ hr
  obtain ⟨_, rfl⟩ := returns_pure.mp hr
  exact ⟨[], asserts_nothing h⟩

theorem States.seq {c d : Condition} {first second : Encoder Unit} (h : States v int c first)
    (h' : States v int d second) :
    States v int (fun α I => c α I ∧ d α I) (first >>= fun _ => second) := by
  intro p u q hv hr
  obtain ⟨_, s, hfirst, hsecond⟩ := returns_bind.mp hr
  obtain ⟨new, hnew⟩ := h p _ s hv hfirst
  obtain ⟨new', hnew'⟩ := h' s u q (hv.extend hnew.extension) hsecond
  exact ⟨new ++ new', hnew.trans hv hnew'⟩

theorem States.congr {c d : Condition} {command : Encoder Unit} (h : States v int c command)
    (hcd : ∀ α (I : Instance α), c α I ↔ d α I) : States v int d command := by
  intro p u q hv hr
  obtain ⟨new, hnew⟩ := h p u q hv hr
  exact ⟨new, hnew.congr hcd⟩

theorem states_forM {β : Type} {c : β → Condition} {command : β → Encoder Unit} {xs : List β}
    (h : ∀ x ∈ xs, States v int (c x) (command x)) :
    States v int (fun α I => ∀ x ∈ xs, c x α I) (xs.forM command) := by
  induction xs with
  | nil => exact states_pure fun _ _ => nofun
  | cons x xs ih =>
    rw [List.forall_mem_cons] at h
    exact (h.1.seq (ih h.2)).congr fun α I => by rw [List.forall_mem_cons]

theorem states_ite {b : Bool} {c : Condition} {command : Encoder Unit}
    (h : b = true → States v int c command) :
    States v int (fun α I => b = true → c α I) (if b then command else pure ()) := by
  cases b with
  | false => exact states_pure fun _ _ hb => absurd hb Bool.false_ne_true
  | true => exact (h rfl).congr fun α I => by simp

/-! ## Single assertions -/

/-- A formula over what is declared, except for its own variables. -/
theorem asserts_term {cond : Condition} {name : Option String} {t : Term}
    (hgrows : p.script.AddsVariables q.script)
    (hbelow : ∀ {f : Script}, q.script.Extends f → t.Below f q.script.arena.size)
    (htruth : ∀ {f : Script} {α E : Type} {ι : α → E} {I : Instance α} {M : Structure E},
      q.script.Extends f → Interprets v f ι I M → (t.Holds f M ↔ cond α I)) :
    Asserts v int cond p { q with script := q.script.addAssertion name t } [⟨name, t⟩] where
  extension := hgrows.extension.trans (q.script.extends_addAssertion name t)
  assertions := by
    change q.script.assertions ++ [_] = _
    rw [hgrows.assertions]
  frame hf hMN hM := by
    rw [Structure.Models, List.forall_mem_singleton] at hM ⊢
    exact (Term.holds_congr (hbelow ((q.script.extends_addAssertion name t).trans hf)) hMN).mp hM
  sound hf hM _ _ _ hnew := by
    rw [Structure.Models, List.forall_mem_singleton] at hnew
    exact (htruth ((q.script.extends_addAssertion name t).trans hf) hM).mp hnew
  complete {f α E ι I M _ _} hf hM _ _ hsorted _ hc := by
    have hqf := (q.script.extends_addAssertion name t).trans hf
    have hsorted' : M.SortedBelow f q.script.arena.size := hsorted.addsVariables hgrows hqf
    refine ⟨M, .refl _ _, hsorted', ?_⟩
    rw [Structure.Models, List.forall_mem_singleton]
    exact (htruth hqf hM).mpr hc

theorem returns_sigLabel {id : SigId} {label : String} (h : Returns (sigLabel v id) p label q) :
    (∃ g, v.model.signature? id = some g) ∧ q = p := by
  unfold sigLabel at h
  split at h
  · rename_i g hg
    exact ⟨⟨g, hg⟩, (returns_pure.mp h).2⟩
  · exact (not_returns_unsupported h).elim

/-! ## Facts -/

theorem EncodesTop.asserts {e : Expr} {r : Encoded} {t : Term} {new : List Assertion}
    (h : EncodesTop v e p r q new) (hc : r.close = .ok t)
    (hint : InvolvesInt v.model e → int)
    (hfit : ∀ {α : Type} {I : Instance α}, I.FactsFit v.model → I.CountsFit e)
    (name : Option String) : Asserts v int (fun _ I => I.Holds e []) p
      { q with script := q.script.addAssertion name t } (new ++ [⟨name, t⟩]) where
  extension := h.extension.trans (q.script.extends_addAssertion name t)
  assertions := by
    change q.script.assertions ++ [_] = _
    rw [h.assertions, List.append_assoc]
  frame hf hMN hM := by
    have hqf := (q.script.extends_addAssertion name t).trans hf
    rw [Structure.models_append, Structure.Models, Structure.Models,
      List.forall_mem_singleton] at hM ⊢
    have hbelow := Encoded.close_below (h.chain hqf) (h.below hqf) hc
    exact ⟨h.frame hqf (hMN.on _) hM.1, (Term.holds_congr hbelow hMN).mp hM.2⟩
  sound hf hM hfin honto hsorted hnew := by
    have hqf := (q.script.extends_addAssertion name t).trans hf
    rw [Structure.models_append, Structure.Models, Structure.Models,
      List.forall_mem_singleton] at hnew
    exact h.sound hqf hM hfin (fun hi => honto (hint hi)) hsorted hnew.1
      ((Encoded.close_holds (h.chain hqf) hc).mp hnew.2)
  complete hf hM hfin honto hsorted hfits he := by
    have hqf := (q.script.extends_addAssertion name t).trans hf
    obtain ⟨N, hMN, hN, hnew, ht⟩ := h.complete hqf hM hfin (fun hi => honto (hint hi)) hsorted
      (hfit hfits) he
    refine ⟨N, hMN.agrees, hN, ?_⟩
    rw [Structure.models_append, Structure.Models, Structure.Models, List.forall_mem_singleton]
    exact ⟨hnew, (Encoded.close_holds (h.chain hqf) hc).mpr ht⟩

theorem states_assertFact {name : String} {e : Expr} (he : WellTyped v.model e)
    (hint : InvolvesInt v.model e → int)
    (hfit : ∀ {α : Type} {I : Instance α}, I.FactsFit v.model → I.CountsFit e) :
    States v int (fun _ I => I.Holds e []) (assertFact v name e) := by
  intro p u q hv h
  simp only [assertFact, returns_bind, returns_formula, returns_assertTerm] at h
  obtain ⟨t, s, ⟨r, hr, hc⟩, rfl⟩ := h
  obtain ⟨new, hnew⟩ := encode_fact he p r s hv hr
  exact ⟨_, hnew.asserts hc hint hfit (some name)⟩

/-! ## Multiplicities -/

theorem allows_image {β γ : Type} {f : β → γ} (hf : Function.Injective f) {s : Set β}
    (mult : Multiplicity) : mult.Allows (f '' s) ↔ mult.Allows s := by
  cases mult with
  | set => exact Iff.rfl
  | some => exact Set.image_nonempty
  | lone =>
    exact ⟨fun h => Set.subsingleton_of_image hf s h, fun h => h.image f⟩
  | one =>
    constructor
    · rintro ⟨y, hy⟩
      obtain ⟨x, _, rfl⟩ : y ∈ f '' s := hy ▸ Set.mem_singleton y
      rw [← Set.image_singleton, hf.image_injective.eq_iff] at hy
      exact ⟨x, hy⟩
    · rintro ⟨x, rfl⟩
      exact ⟨f x, Set.image_singleton⟩

theorem holds_multiplicity {α : Type} {I : Instance α} {env : Env α} {e : Expr}
    {mult : Multiplicity} {op : Relational.UnaryOp} (h : multiplicityOp? mult = some op) :
    I.Holds (.unary op e) env ↔ mult.Allows (I.denote env e) := by
  cases mult with
  | set => cases h
  | one | lone | some =>
    cases h
    exact Iff.rfl

theorem wellTyped_multiplicity {m : Model} {e : Expr} {cs : List ColumnType} {mult : Multiplicity}
    {op : Relational.UnaryOp} (h : multiplicityOp? mult = some op) (he : HasColumns m e cs) :
    WellTyped m (.unary op e) := by
  refine .multiplicity ?_ he
  cases mult with
  | set => cases h
  | one | lone | some =>
    cases h
    simp

theorem multiplicityOp?_ne_card {mult : Multiplicity} {op : Relational.UnaryOp}
    (h : multiplicityOp? mult = some op) : op ≠ .card := by
  cases mult <;> cases h <;> exact nofun

end TupleLogic.Encoding
