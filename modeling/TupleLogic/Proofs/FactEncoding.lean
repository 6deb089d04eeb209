import TupleLogic.Proofs.Enumeration

/-! Facts, which may count. The encoding of a fact asserts what its cardinalities
need as it goes; these side assertions are about constants and sets of their
own. Where they hold, the encoding is true only if the fact holds, and where
the fact holds the constants can be chosen such that they hold and the
encoding is true. -/

namespace TupleLogic.Encoding

open Relational Encoder
open NameSupply (elementName setName)

variable {v : Vocabulary} {p q : Progress} {r : Encoded}

/-- The encoding of a fact with the side assertions `new`. -/
structure EncodesTop (v : Vocabulary) (e : Expr) (p : Progress) (r : Encoded) (q : Progress)
    (new : List Assertion) : Prop where
  extension : p.script.Extends q.script
  assertions : q.script.assertions = p.script.assertions ++ new
  chain : ∀ {f : Script}, q.script.Extends f →
    Chain f p.script.arena.size q.script.arena.size r.witnesses
  below : ∀ {f : Script}, q.script.Extends f → r.term.Below f q.script.arena.size
  /-- The side assertions are about what is declared here. -/
  frame : ∀ {f : Script} {E : Type} {M N : Structure E}, q.script.Extends f →
    M.AgreesOn p.script.arena.size q.script.arena.size N → M.Models f new → N.Models f new
  /-- So is the encoding, as long as the instance is the same. -/
  transfer : ∀ {f : Script} {α E : Type} {ι : α → E} {I : Instance α} {M N : Structure E}
    [Nonempty α], q.script.Extends f → Interprets v f ι I M → Interprets v f ι I N →
    (InvolvesInt v.model e → Onto f M ∧ Onto f N) →
    M.AgreesOn p.script.arena.size q.script.arena.size N → r.Truth f M → r.Truth f N
  sound : ∀ {f : Script} {α E : Type} {ι : α → E} {I : Instance α} {M : Structure E}
    [Nonempty α] [Finite α], q.script.Extends f → Interprets v f ι I M →
    (∀ id, (I.field id).Finite) → (InvolvesInt v.model e → Onto f M) →
    M.SortedBelow f q.script.arena.size → M.Models f new → r.Truth f M → I.Holds e []
  complete : ∀ {f : Script} {α E : Type} {ι : α → E} {I : Instance α} {M : Structure E}
    [Nonempty α] [Finite α], q.script.Extends f → Interprets v f ι I M →
    (∀ id, (I.field id).Finite) → (InvolvesInt v.model e → Onto f M) →
    M.SortedBelow f p.script.arena.size → I.CountsFit e → I.Holds e [] →
      ∃ N, M.AgreesOff p.script.arena.size q.script.arena.size N ∧
        N.SortedBelow f q.script.arena.size ∧ N.Models f new ∧ r.Truth f N

/-- A formula that counts nothing needs no side assertions. -/
theorem EncodesFormula.top {e : Expr} (h : EncodesFormula v [] e p r q) :
    EncodesTop v e p r q [] where
  extension := h.grows.extension
  assertions := by rw [h.grows.assertions, List.append_nil]
  chain := h.chain
  below := h.below
  frame _ _ _ := nofun
  transfer hf hM hN honto _ ht := by
    rw [h.truth hf hM .nil fun hi => (honto hi).1] at ht
    rwa [h.truth hf hN .nil fun hi => (honto hi).2]
  sound hf hM _ honto _ _ ht := (h.truth hf hM .nil honto).mp ht
  complete hf hM _ honto hsorted _ he :=
    ⟨_, .refl _ _ _, hsorted.addsVariables h.grows hf, nofun,
      (h.truth hf hM .nil honto).mpr he⟩

/-! ## Conjunctions -/

/-- Facts that are encoded one after the other, with all that they owe. -/
structure EncodesTopAll (v : Vocabulary) (es : List Expr) (p : Progress) (rs : List Encoded)
    (q : Progress) (new : List Assertion) : Prop where
  extension : p.script.Extends q.script
  assertions : q.script.assertions = p.script.assertions ++ new
  chain : ∀ {f : Script}, q.script.Extends f →
    Chain f p.script.arena.size q.script.arena.size (rs.flatMap Encoded.witnesses)
  below : ∀ {f : Script}, q.script.Extends f → ∀ r ∈ rs, r.term.Below f q.script.arena.size
  frame : ∀ {f : Script} {E : Type} {M N : Structure E}, q.script.Extends f →
    M.AgreesOn p.script.arena.size q.script.arena.size N → M.Models f new → N.Models f new
  transfer : ∀ {f : Script} {α E : Type} {ι : α → E} {I : Instance α} {M N : Structure E}
    [Nonempty α], q.script.Extends f → Interprets v f ι I M → Interprets v f ι I N →
    ((∃ e ∈ es, InvolvesInt v.model e) → Onto f M ∧ Onto f N) →
    M.AgreesOn p.script.arena.size q.script.arena.size N →
    Owes f (rs.flatMap Encoded.witnesses) (fun K => ∀ r ∈ rs, r.term.Holds f K) M →
    Owes f (rs.flatMap Encoded.witnesses) (fun K => ∀ r ∈ rs, r.term.Holds f K) N
  sound : ∀ {f : Script} {α E : Type} {ι : α → E} {I : Instance α} {M : Structure E}
    [Nonempty α] [Finite α], q.script.Extends f → Interprets v f ι I M →
    (∀ id, (I.field id).Finite) → ((∃ e ∈ es, InvolvesInt v.model e) → Onto f M) →
    M.SortedBelow f q.script.arena.size → M.Models f new →
    Owes f (rs.flatMap Encoded.witnesses) (fun K => ∀ r ∈ rs, r.term.Holds f K) M →
    ∀ e ∈ es, I.Holds e []
  complete : ∀ {f : Script} {α E : Type} {ι : α → E} {I : Instance α} {M : Structure E}
    [Nonempty α] [Finite α], q.script.Extends f → Interprets v f ι I M →
    (∀ id, (I.field id).Finite) → ((∃ e ∈ es, InvolvesInt v.model e) → Onto f M) →
    M.SortedBelow f p.script.arena.size → (∀ e ∈ es, I.CountsFit e) → (∀ e ∈ es, I.Holds e []) →
      ∃ N, M.AgreesOff p.script.arena.size q.script.arena.size N ∧
        N.SortedBelow f q.script.arena.size ∧ N.Models f new ∧
        Owes f (rs.flatMap Encoded.witnesses) (fun K => ∀ r ∈ rs, r.term.Holds f K) N

theorem encodesTopAll_nil : EncodesTopAll v [] p [] p [] where
  extension := .refl _
  assertions := by rw [List.append_nil]
  chain _ := .nil (Nat.le_refl _)
  below _ := nofun
  frame _ _ _ := nofun
  transfer _ _ _ _ _ _ := nofun
  sound _ _ _ _ _ _ _ := nofun
  complete _ _ _ _ hsorted _ _ := ⟨_, .refl _ _ _, hsorted, nofun, nofun⟩

/-- What two parts owe together comes apart: the witnesses of the first are
not declared where those of the second are. -/
theorem owes_cons_iff {s : Progress} {e : Expr} {es : List Expr} {rs : List Encoded}
    {new new' : List Assertion} (hv : Declared v p.script) (h : EncodesTop v e p r s new)
    (hrest : EncodesTopAll v es s rs q new') {f : Script} {α E : Type} {ι : α → E}
    {I : Instance α} {M : Structure E} [Nonempty α] (hf : q.script.Extends f)
    (hM : Interprets v f ι I M) (honto : (∃ e' ∈ e :: es, InvolvesInt v.model e') → Onto f M) :
    Owes f ((r :: rs).flatMap Encoded.witnesses) (fun K => ∀ r' ∈ r :: rs, r'.term.Holds f K) M ↔
      r.Truth f M ∧
        Owes f (rs.flatMap Encoded.witnesses) (fun K => ∀ r' ∈ rs, r'.term.Holds f K) M := by
  have hsf := hrest.extension.trans hf
  have hpf := h.extension.trans hsf
  simp only [List.flatMap_cons, List.forall_mem_cons]
  refine owes_append_and (h.chain hsf) (hrest.chain hf) (Term.holds_congr (h.below hsf)) ?_
  intro N hN
  have hN' := hM.agrees hv hpf hN.agrees
  have honto' : (∃ e' ∈ es, InvolvesInt v.model e') → Onto f M ∧ Onto f N := fun ⟨e', he', hi⟩ => by
    have hM := honto ⟨e', List.mem_cons_of_mem _ he', hi⟩
    exact ⟨hM, hM.agrees hv hpf hN.agrees⟩
  exact ⟨hrest.transfer hf hN' hM (fun hi => (honto' hi).symm) (hN.on _).symm,
    hrest.transfer hf hM hN' honto' (hN.on _)⟩

theorem encodesTopAll_cons {s : Progress} {e : Expr} {es : List Expr} {rs : List Encoded}
    {new new' : List Assertion} (hv : Declared v p.script) (h : EncodesTop v e p r s new)
    (hrest : EncodesTopAll v es s rs q new') :
    EncodesTopAll v (e :: es) p (r :: rs) q (new ++ new') where
  extension := h.extension.trans hrest.extension
  assertions := by rw [hrest.assertions, h.assertions, List.append_assoc]
  chain hf := (h.chain (hrest.extension.trans hf)).append (hrest.chain hf)
  below hf := List.forall_mem_cons.mpr
    ⟨(h.below (hrest.extension.trans hf)).mono hrest.extension.size_le, hrest.below hf⟩
  frame hf hMN hM := by
    rw [Structure.models_append] at hM ⊢
    refine ⟨h.frame (hrest.extension.trans hf) (hMN.mono (Nat.le_refl _) ?_) hM.1,
      hrest.frame hf (hMN.mono ?_ (Nat.le_refl _)) hM.2⟩
    · exact hrest.extension.size_le
    · exact h.extension.size_le
  transfer {f α E ι I M N _} hf hM hN honto hMN ht := by
    rw [owes_cons_iff hv h hrest hf hM fun hi => (honto hi).1] at ht
    rw [owes_cons_iff hv h hrest hf hN fun hi => (honto hi).2]
    refine ⟨h.transfer (hrest.extension.trans hf) hM hN
      (fun hi => honto ⟨e, List.mem_cons_self, hi⟩) (hMN.mono (Nat.le_refl _) ?_) ht.1,
      hrest.transfer hf hM hN (fun ⟨e', he', hi⟩ => honto ⟨e', List.mem_cons_of_mem _ he', hi⟩)
        (hMN.mono ?_ (Nat.le_refl _)) ht.2⟩
    · exact hrest.extension.size_le
    · exact h.extension.size_le
  sound {f α E ι I M _ _} hf hM hfin honto hsorted hnew ht := by
    rw [owes_cons_iff hv h hrest hf hM honto] at ht
    rw [Structure.models_append] at hnew
    refine List.forall_mem_cons.mpr ⟨?_, ?_⟩
    · exact h.sound (hrest.extension.trans hf) hM hfin
        (fun hi => honto ⟨e, List.mem_cons_self, hi⟩)
        (hsorted.mono hrest.extension.size_le) hnew.1 ht.1
    · exact hrest.sound hf hM hfin
        (fun ⟨e', he', hi⟩ => honto ⟨e', List.mem_cons_of_mem _ he', hi⟩) hsorted hnew.2 ht.2
  complete {f α E ι I M _ _} hf hM hfin honto hsorted hfit he := by
    have hsf := hrest.extension.trans hf
    have hpf := h.extension.trans hsf
    rw [List.forall_mem_cons] at hfit he
    have hfirst : InvolvesInt v.model e → Onto f M := fun hi => honto ⟨e, List.mem_cons_self, hi⟩
    obtain ⟨N, hMN, hNsorted, hNnew, hNt⟩ := h.complete hsf hM hfin hfirst hsorted hfit.1 he.1
    have hN := hM.agrees hv hpf hMN.agrees
    have hNonto := fun hi => (honto hi).agrees hv hpf hMN.agrees
    obtain ⟨K, hNK, hKsorted, hKnew, hKt⟩ := hrest.complete hf hN hfin
      (fun ⟨e', he', hi⟩ => hNonto ⟨e', List.mem_cons_of_mem _ he', hi⟩) hNsorted hfit.2 he.2
    have hMK := hMN.trans h.extension.size_le hrest.extension.size_le hNK
    have hK := hM.agrees hv hpf hMK.agrees
    have hKonto := fun hi => (honto hi).agrees hv hpf hMK.agrees
    -- What the second part changes lies beyond all that the first part is about.
    have hsame := hNK.agrees.on p.script.arena.size
    refine ⟨K, hMK, hKsorted, Structure.models_append.mpr ⟨h.frame hsf hsame hNnew, hKnew⟩, ?_⟩
    rw [owes_cons_iff hv h hrest hf hK hKonto]
    have hboth := fun hi => And.intro (hNonto ⟨e, List.mem_cons_self, hi⟩)
      (hKonto ⟨e, List.mem_cons_self, hi⟩)
    exact ⟨h.transfer hsf hN hK hboth hsame hNt, hKt⟩

/-- What encodes a fact does so with some side assertions, wherever it is run. -/
def FactMeaning (v : Vocabulary) (e : Expr) (enc : Encoder Encoded) : Prop :=
  ∀ p r q, Declared v p.script → Returns enc p r q → ∃ new, EncodesTop v e p r q new

theorem Meaning.fact {e : Expr} {enc : Encoder Encoded} (h : Meaning v [] e enc) :
    FactMeaning v e enc := fun p r q hv hr => ⟨[], (h p r q hv (scopeIn_nil _) hr).top⟩

theorem encodesTopAll_returns {es : List Expr} {encs : List (Encoder Encoded)} {rs : List Encoded}
    (hv : Declared v p.script) (henc : List.Forall₂ (FactMeaning v) es encs)
    (h : Returns (encs.mapM id) p rs q) : ∃ new, EncodesTopAll v es p rs q new := by
  induction henc generalizing p rs with
  | nil =>
    obtain ⟨rfl, rfl⟩ := returns_mapM_nil.mp h
    exact ⟨[], encodesTopAll_nil⟩
  | cons he _ ih =>
    obtain ⟨r, s, rs', hr, hrs, rfl⟩ := returns_mapM_cons.mp h
    obtain ⟨new, hfirst⟩ := he _ _ _ hv hr
    obtain ⟨new', hrest⟩ := ih (hv.extend hfirst.extension) hrs
    exact ⟨new ++ new', encodesTopAll_cons hv hfirst hrest⟩

theorem EncodesTopAll.conjunction {es : List Expr} {rs : List Encoded} {e : Expr} {t : Term}
    {new : List Assertion} (h : EncodesTopAll v es p rs q new)
    (hc : (Encoded.mk (conjNontrivial (rs.map Encoded.term))
      (rs.flatMap Encoded.witnesses)).close = .ok t)
    (he : ∀ {α : Type} {I : Instance α}, I.Holds e [] ↔ ∀ e' ∈ es, I.Holds e' [])
    (hint : ∀ e' ∈ es, InvolvesInt v.model e' → InvolvesInt v.model e)
    (hcounted : ∀ e' ∈ es, e'.counted ⊆ e.counted) : EncodesTop v e p ⟨t, []⟩ q new := by
  have htruth : ∀ {f : Script} {E : Type} {M : Structure E}, q.script.Extends f →
      (Encoded.Truth ⟨t, []⟩ f M ↔
        Owes f (rs.flatMap Encoded.witnesses) (fun K => ∀ r ∈ rs, r.term.Holds f K) M) := by
    intro f E M hf
    refine (Encoded.close_holds (h.chain hf) hc).trans (owes_congr (h.chain hf) fun N _ => ?_)
    rw [holds_conjNontrivial, List.forall_mem_map]
  refine ⟨h.extension, h.assertions, fun _ => .nil h.extension.size_le, fun hf => ?_, h.frame,
    ?_, ?_, ?_⟩
  · refine Encoded.close_below (h.chain hf) ?_ hc
    exact below_conjNontrivial (List.forall_mem_map.mpr (h.below hf))
  · intro f α E ι I M N _ hf hM hN honto hMN ht
    rw [htruth hf] at ht ⊢
    exact h.transfer hf hM hN (fun ⟨e', he', hi⟩ => honto (hint e' he' hi)) hMN ht
  · intro f α E ι I M _ _ hf hM hfin honto hsorted hnew ht
    rw [htruth hf] at ht
    rw [he]
    exact h.sound hf hM hfin (fun ⟨e', he', hi⟩ => honto (hint e' he' hi)) hsorted hnew ht
  · intro f α E ι I M _ _ hf hM hfin honto hsorted hfit hholds
    rw [he] at hholds
    obtain ⟨N, hMN, hNsorted, hNnew, hNt⟩ := h.complete hf hM hfin
      (fun ⟨e', he', hi⟩ => honto (hint e' he' hi)) hsorted (fun e' he' c hc => hfit c (hcounted e' he' hc)) hholds
    exact ⟨N, hMN, hNsorted, hNnew, (htruth hf).mpr hNt⟩

theorem FactMeaning.conjunction {es : List Expr} {encs : List (Encoder Encoded)} {e : Expr}
    (henc : List.Forall₂ (FactMeaning v) es encs)
    (he : ∀ {α : Type} {I : Instance α}, I.Holds e [] ↔ ∀ e' ∈ es, I.Holds e' [])
    (hint : ∀ e' ∈ es, InvolvesInt v.model e' → InvolvesInt v.model e)
    (hcounted : ∀ e' ∈ es, e'.counted ⊆ e.counted) : FactMeaning v e (conjunction encs) := by
  intro p r q hv h
  simp only [Encoding.conjunction, returns_bind, returns_liftTerm, returns_pure] at h
  obtain ⟨rs, _, hrs, t, _, ⟨hc, rfl⟩, rfl, rfl⟩ := h
  obtain ⟨new, hall⟩ := encodesTopAll_returns hv henc hrs
  exact ⟨new, hall.conjunction hc he hint hcounted⟩

/-! ## Counted relations -/

/-- A bound on the number of elements of `x`, which has the columns `cs`, encoded
as `t` with the side assertions `new`. -/
structure EncodesCount (v : Vocabulary) (x : Expr) (cs : List ColumnType) (bound : CountBound)
    (p : Progress) (t : Term) (q : Progress) (new : List Assertion) : Prop where
  extension : p.script.Extends q.script
  assertions : q.script.assertions = p.script.assertions ++ new
  /-- All that is declared are constants and a set. -/
  fresh : ∀ i, p.script.arena.size ≤ i → i < q.script.arena.size → ∃ k,
    q.script.arena[i]? = some (.constant (elementName k) (.tuple (cs.map ColumnType.sort))) ∨
      q.script.arena[i]? = some (.function (setName k) [] (relationSort cs))
  below : ∀ {f : Script}, q.script.Extends f → t.Below f q.script.arena.size
  frame : ∀ {f : Script} {E : Type} {M N : Structure E}, q.script.Extends f →
    M.AgreesOn p.script.arena.size q.script.arena.size N → M.Models f new → N.Models f new
  transfer : ∀ {f : Script} {α E : Type} {ι : α → E} {I : Instance α} {M N : Structure E},
    q.script.Extends f → Interprets v f ι I M → Interprets v f ι I N →
    M.AgreesOn p.script.arena.size q.script.arena.size N → t.Holds f M → t.Holds f N
  sound : ∀ {f : Script} {α E : Type} {ι : α → E} {I : Instance α} {M : Structure E},
    q.script.Extends f → Interprets v f ι I M → (I.denote [] x).Finite →
    M.SortedOn f p.script.arena.size q.script.arena.size → M.Models f new → t.Holds f M →
    bound.Admits (I.denote [] x).ncard
  /-- The constants and the set can be chosen wherever the bound is met; there may
  be more constants than elements, so some tuple has to exist. -/
  complete : ∀ {f : Script} {α E : Type} {ι : α → E} {I : Instance α} {M : Structure E},
    q.script.Extends f → Interprets v f ι I M → (I.denote [] x).Finite →
    (I.denote [] x).ncard ≤ 9223372036854775807 →
    (∃ cells : List (Cell α), cells.map Cell.type = cs) → bound.Admits (I.denote [] x).ncard →
      ∃ N, M.AgreesOff p.script.arena.size q.script.arena.size N ∧
        N.SortedOn f p.script.arena.size q.script.arena.size ∧ N.Models f new ∧ t.Holds f N

section Counted

variable {e x : Expr} {cs : List ColumnType} {set t : Term} {bound : CountBound}
  {new : List Assertion}

/-- A fact that says of a relation what a bound says. -/
theorem EncodesCount.top (h : EncodesCount v x cs bound p t q new) (ht : HasColumns v.model x cs)
    (hcounted : x ∈ e.counted)
    (he : ∀ {α : Type} {I : Instance α}, I.Holds e [] ↔ bound.Admits (I.denote [] x).ncard) :
    EncodesTop v e p ⟨t, []⟩ q new where
  extension := h.extension
  assertions := h.assertions
  chain _ := .nil h.extension.size_le
  below := h.below
  frame := h.frame
  transfer hf hM hN _ hMN htruth := h.transfer hf hM hN hMN htruth
  sound hf hM hfin _ hsorted hnew htruth :=
    he.mpr (h.sound hf hM (finite_denote hfin ht) (hsorted.on _) hnew htruth)
  complete hf hM hfin _ hsorted hfit hI := by
    obtain ⟨N, hMN, hN, hNnew, hNt⟩ := h.complete hf hM (finite_denote hfin ht)
      (hfit x hcounted) (exists_cells cs) (he.mp hI)
    exact ⟨N, hMN, hN.below hMN.agrees hsorted, hNnew, hNt⟩

/-- A bound that says something of the relation as it stands; `rel` is what
it says. -/
theorem encodesCount_plain (rel : ∀ {β : Type}, Set β → Prop)
    (hset : EncodesRelation v p.script [] x cs set)
    (hbelow : ∀ {f n}, set.Below f n → t.Below f n)
    (hholds : ∀ {f : Script} {E : Type} {M : Structure E} {R : Set (Datum E)},
      set.eval f M = .set R → (t.Holds f M ↔ rel R))
    (hrel : ∀ {β : Type} {R : Set β}, R.Finite → rel R → bound.Admits R.ncard)
    (hrel' : ∀ {β : Type} {R : Set β}, R.Finite → R.ncard ≤ 9223372036854775807 →
      bound.Admits R.ncard → rel R) :
    EncodesCount v x cs bound p t p [] := by
  have hvalue : ∀ {f : Script} {α E : Type} {ι : α → E} {I : Instance α} {M : Structure E},
      p.script.Extends f → Interprets v f ι I M →
        (t.Holds f M ↔ rel (relationValue ι (I.denote [] x)).elements) := fun hf hM =>
    hholds (hset.value hf hM .nil)
  refine ⟨.refl _, by rw [List.append_nil], fun i hlo hhi => by omega,
    fun hf => hbelow (hset.below hf), fun _ _ _ => nofun, ?_, ?_, ?_⟩
  · intro f α E ι I M N hf hM hN _ htruth
    exact (hvalue hf hN).mpr ((hvalue hf hM).mp htruth)
  · intro f α E ι I M hf hM hfin _ _ htruth
    rw [← ncard_relationValue hM.injective]
    exact hrel (finite_relationValue hfin) ((hvalue hf hM).mp htruth)
  · intro f α E ι I M hf hM hfin hfit _ hI
    refine ⟨M, .refl _ _ _, fun id d hlo hhi => by omega, nofun, (hvalue hf hM).mpr (hrel' ?_ ?_ ?_)⟩
    · exact finite_relationValue hfin
    · rwa [ncard_relationValue hM.injective]
    · rwa [ncard_relationValue hM.injective]

/-- The values of the constants, in a structure that respects their sorts. -/
theorem Enumerates.values {n : Nat} {set : TermSort} {pairwise : Bool} {s t f : Script}
    {E : Type} {M : Structure E}
    (h : Enumerates n (.tuple (cs.map ColumnType.sort)) set pairwise s t new) (hf : t.Extends f)
    (hsorted : M.SortedOn f s.arena.size t.arena.size) (hM : M.Models f new) :
    ∃ ds : List (Datum E), ds.length = n ∧ (pairwise = true → ds.Nodup) ∧
      M.meaning ⟨s.arena.size + n⟩ [] = .set {d | d ∈ ds} := by
  obtain ⟨hdistinct, hset⟩ := h.holds.mp hM
  have hdatum : ∀ id ∈ positions s.arena.size n,
      M.meaning id [] = .datum (M.meaning id []).toDatum := by
    intro id hid
    obtain ⟨k, hname⟩ := h.constant id hid
    have hpos := mem_positions.mp hid
    have hsize := h.size
    have hsort : (M.meaning id []).HasSort M.carrier _ :=
      hsorted id _ (by omega) (by omega) (hf.decl hname)
    cases hm : M.meaning id [] with
    | datum d => rfl
    | set _ | truth _ =>
      rw [hm] at hsort
      cases hsort
  refine ⟨(positions s.arena.size n).map fun id => (M.meaning id []).toDatum, ?_, fun hp => ?_, ?_⟩
  · rw [List.length_map, positions, List.length_map, List.length_range']
  · rw [List.Nodup, List.pairwise_map]
    refine (List.pairwise_map.mp (hdistinct hp)).imp_of_mem fun hid hid' hne heq => hne ?_
    rw [hdatum _ hid, hdatum _ hid', heq]
  · rw [hset]
    congr 1
    ext d
    simp

/-- Side assertions are about the constants and the set of them. -/
theorem Enumerates.frame {n : Nat} {element set : TermSort} {pairwise : Bool} {s t f : Script}
    {E : Type} {M N : Structure E} (h : Enumerates n element set pairwise s t new)
    (hMN : M.AgreesOn s.arena.size t.arena.size N) (hM : M.Models f new) : N.Models f new := by
  have hsize := h.size
  have hids : ∀ id ∈ positions s.arena.size n, M.meaning id = N.meaning id := by
    intro id hid
    have := mem_positions.mp hid
    exact hMN.2 id (by omega) (by omega)
  have hvalues : (positions s.arena.size n).map (M.meaning · []) =
      (positions s.arena.size n).map (N.meaning · []) :=
    List.map_congr_left fun id hid => by rw [hids id hid]
  rw [h.holds] at hM ⊢
  rw [← hvalues, ← hMN.2 ⟨s.arena.size + n⟩ (by simp) (by simp [hsize])]
  refine ⟨hM.1, hM.2.trans (congrArg TermValue.set (Set.ext fun d => ?_))⟩
  refine exists_congr fun id => and_congr_right fun hid => ?_
  rw [hids id hid]

/-- A bound that compares the relation with a set of constants; `rel` is how
the two compare. -/
theorem encodesCount_enumerated {n : Nat} {pairwise : Bool}
    (rel : ∀ {β : Type}, Set β → Set β → Prop) (ht : HasColumns v.model x cs)
    (hset : EncodesRelation v p.script [] x cs set)
    (h : Enumerates n (.tuple (cs.map ColumnType.sort)) (relationSort cs) pairwise p.script
      q.script new)
    (hbelow : ∀ {f k}, set.Below f k → p.script.arena.size + n < k → t.Below f k)
    (hcongr : ∀ {f : Script} {E : Type} {M N : Structure E}, set.eval f M = set.eval f N →
      M.meaning ⟨p.script.arena.size + n⟩ = N.meaning ⟨p.script.arena.size + n⟩ →
      t.Holds f M → t.Holds f N)
    (hholds : ∀ {f : Script} {E : Type} {M : Structure E} {R S : Set (Datum E)},
      set.eval f M = .set R → M.meaning ⟨p.script.arena.size + n⟩ [] = .set S →
      (t.Holds f M ↔ rel R S))
    (hrel : ∀ {β : Type} {R : Set β} {ds : List β}, R.Finite → ds.length = n →
      (pairwise = true → ds.Nodup) → rel R {d | d ∈ ds} → bound.Admits R.ncard)
    (hrel' : ∀ {β : Type} {R : Set β} (d₀ : β), R.Finite → bound.Admits R.ncard →
      ∃ ds : List β, ds.length = n ∧ (pairwise = true → ds.Nodup) ∧
        (∀ d ∈ ds, d ∈ R ∨ d = d₀) ∧ rel R {d | d ∈ ds}) :
    EncodesCount v x cs bound p t q new := by
  have hsize := h.size
  have hle := h.extension.size_le
  refine ⟨h.extension, h.assertions, ?_, fun hf => ?_, fun _ hMN hM => h.frame hMN hM, ?_, ?_, ?_⟩
  · intro i hlo hhi
    by_cases hi : i < p.script.arena.size + n
    · obtain ⟨k, hk⟩ := h.constant ⟨i⟩ (mem_positions.mpr ⟨hlo, hi⟩)
      exact ⟨k, .inl hk⟩
    · obtain ⟨k, hk⟩ := h.set
      have hlast : i = p.script.arena.size + n := by omega
      exact ⟨k, .inr (hlast ▸ hk)⟩
  · exact hbelow ((hset.below (h.extension.trans hf)).mono hle) (by omega)
  · intro f α E ι I M N hf hM hN hMN htruth
    have hpf := h.extension.trans hf
    refine hcongr ?_ (hMN.2 _ (by simp) (by simp [hsize])) htruth
    rw [hset.value hpf hM .nil, hset.value hpf hN .nil]
  · intro f α E ι I M hf hM hfin hsorted hnew htruth
    obtain ⟨ds, hlen, hnodup, haux⟩ := h.values hf hsorted hnew
    rw [← ncard_relationValue hM.injective]
    refine hrel (finite_relationValue hfin) hlen hnodup ?_
    exact (hholds (hset.value (h.extension.trans hf) hM .nil) haux).mp htruth
  · intro f α E ι I M hf hM hfin _ hcells hI
    have hpf := h.extension.trans hf
    obtain ⟨cells, hcells⟩ := hcells
    rw [← ncard_relationValue hM.injective] at hI
    -- where the relation has fewer elements than constants, `cells` stands in for the rest
    obtain ⟨ds, hlen, hnodup, hmem, hds⟩ := hrel' (.tuple (cells.map (cellDatum ι)))
      (finite_relationValue hfin) hI
    have hsort : ∀ d ∈ ds, d.HasSort M.carrier (.tuple (cs.map ColumnType.sort)) := by
      intro d hd
      refine (hasSort_tuple hM.atoms).mpr ?_
      rcases hmem d hd with ⟨_, ⟨t, ht', rfl⟩, rfl⟩ | rfl
      · exact ⟨t, types_of_mem_denote hM.typed ht t ht', rfl⟩
      · exact ⟨cells, hcells, rfl⟩
    obtain ⟨N, hMN, hNsorted, hNnew, haux⟩ := h.choose hf hlen hsort hnodup
    refine ⟨N, hMN, hNsorted, hNnew, (hholds ?_ haux).mpr hds⟩
    rw [← Term.eval_congr set (hset.below hpf) hMN.agrees]
    exact hset.value hpf hM .nil

section Bounds

variable (ht : HasColumns v.model x cs) (hset : EncodesRelation v p.script [] x cs set)

include hset

/-- A bound that nothing, or everything, meets. -/
theorem encodesCount_bool {b : Bool}
    (hb : ∀ n, n ≤ 9223372036854775807 → (bound.Admits n ↔ b = true))
    (hb' : b = true → ∀ n, bound.Admits n) : EncodesCount v x cs bound p (.bool b) p [] := by
  refine encodesCount_plain (fun _ => b = true) hset (fun _ => trivial)
    (fun _ => Term.holds_bool b) (fun _ h => hb' h _) (fun _ hle h => (hb _ hle).mp h)

theorem encodesCount_empty (hb : ∀ n, bound.Admits n ↔ n = 0) :
    EncodesCount v x cs bound p (.equals set (.emptySet (relationSort cs))) p [] := by
  refine encodesCount_plain (fun R => R = ∅) hset (fun h => ⟨h, trivial⟩) ?_ ?_ ?_
  · intro f E M R hR
    rw [Term.holds_equals, hR, Term.eval_emptySet, TermValue.set.injEq]
  · rintro β R _ rfl
    rw [hb, Set.ncard_empty]
  · intro β R hR _ h
    rw [hb] at h
    exact (Set.ncard_eq_zero hR).mp h

include ht

theorem exactly_returns {k : Int}
    (h : Returns (encodeBound set (relationSort cs) (.tuple (cs.map ColumnType.sort)) (.exactly k))
      p t q) : ∃ new, EncodesCount v x cs (.exactly k) p t q new := by
  rw [encodeBound] at h
  split at h
  · obtain ⟨rfl, rfl⟩ := returns_pure.mp h
    refine ⟨[], encodesCount_bool hset (fun n _ => ?_) fun hb => absurd hb Bool.false_ne_true⟩
    simp only [CountBound.Admits, Bool.false_eq_true, iff_false]
    omega
  · split at h
    · rename_i hk
      obtain ⟨rfl, rfl⟩ := returns_pure.mp h
      refine ⟨[], encodesCount_empty hset fun n => ?_⟩
      simp only [CountBound.Admits, hk]
      omega
    · simp only [returns_bind, returns_pure] at h
      obtain ⟨_, _, h, rfl, rfl⟩ := h
      obtain ⟨rfl, new, h⟩ := enumerate_returns h
      have hadmits : ∀ n, (CountBound.exactly k).Admits n ↔ n = k.toNat := by
        intro n
        simp only [CountBound.Admits]
        omega
      refine ⟨new, encodesCount_enumerated (fun R S => R = S) ht hset h ?_ ?_ ?_ ?_ ?_⟩
      · exact fun hb hlt => ⟨hb, hlt⟩
      · intro f E M N hval haux hM
        rw [Term.holds_equals, Term.eval_ref] at hM ⊢
        rw [← hval, ← haux, hM]
      · intro f E M R S hR hS
        rw [Term.holds_equals, hR, Term.eval_ref, hS, TermValue.set.injEq]
      · intro β R ds hfin hlen hnodup hRS
        rw [hadmits, ncard_eq_iff_exists_list hfin]
        exact ⟨ds, hlen, hnodup rfl, hRS⟩
      · intro β R d₀ hfin hR
        rw [hadmits, ncard_eq_iff_exists_list hfin] at hR
        obtain ⟨ds, hlen, hnodup, rfl⟩ := hR
        exact ⟨ds, hlen, fun _ => hnodup, fun d hd => .inl hd, rfl⟩

theorem atMost_returns {k : Int}
    (h : Returns (encodeBound set (relationSort cs) (.tuple (cs.map ColumnType.sort)) (.atMost k))
      p t q) : ∃ new, EncodesCount v x cs (.atMost k) p t q new := by
  rw [encodeBound] at h
  split at h
  · obtain ⟨rfl, rfl⟩ := returns_pure.mp h
    refine ⟨[], encodesCount_bool hset (fun n _ => ?_) fun hb => absurd hb Bool.false_ne_true⟩
    simp only [CountBound.Admits, Bool.false_eq_true, iff_false]
    omega
  · split at h
    · rename_i hk
      obtain ⟨rfl, rfl⟩ := returns_pure.mp h
      refine ⟨[], encodesCount_empty hset fun n => ?_⟩
      simp only [CountBound.Admits, hk]
      omega
    · simp only [returns_bind, returns_pure] at h
      obtain ⟨_, _, h, rfl, rfl⟩ := h
      obtain ⟨rfl, new, h⟩ := enumerate_returns h
      have hadmits : ∀ n, (CountBound.atMost k).Admits n ↔ n ≤ k.toNat := by
        intro n
        simp only [CountBound.Admits]
        omega
      refine ⟨new, encodesCount_enumerated (fun R S => R ⊆ S) ht hset h ?_ ?_ ?_ ?_ ?_⟩
      · exact fun hb hlt => ⟨hb, hlt⟩
      · intro f E M N hval haux hM
        rw [Term.holds_subset, Term.eval_ref] at hM ⊢
        rw [← hval, ← haux]
        exact hM
      · intro f E M R S hR hS
        rw [Term.holds_subset, hR, Term.eval_ref, hS, TermValue.elements_set, TermValue.elements_set]
      · intro β R ds _ hlen _ hRS
        rw [hadmits, ← hlen]
        exact (Set.ncard_le_ncard hRS (finite_mem_list ds)).trans (ncard_mem_list_le ds)
      · intro β R d₀ hfin hR
        rw [hadmits, ncard_le_iff_exists_list hfin d₀] at hR
        obtain ⟨ds, hlen, hmem, hsub⟩ := hR
        exact ⟨ds, hlen, fun hb => absurd hb Bool.false_ne_true, hmem, hsub⟩

theorem atLeast_returns {k : Int}
    (h : Returns (encodeBound set (relationSort cs) (.tuple (cs.map ColumnType.sort)) (.atLeast k))
      p t q) : ∃ new, EncodesCount v x cs (.atLeast k) p t q new := by
  rw [encodeBound] at h
  split at h
  · obtain ⟨rfl, rfl⟩ := returns_pure.mp h
    have hadmits : ∀ n, (CountBound.atLeast k).Admits n := by
      intro n
      simp only [CountBound.Admits]
      omega
    exact ⟨[], encodesCount_bool hset (fun n _ => by simp [hadmits]) fun _ => hadmits⟩
  · simp only [returns_bind, returns_pure] at h
    obtain ⟨_, _, h, rfl, rfl⟩ := h
    obtain ⟨rfl, new, h⟩ := enumerate_returns h
    have hadmits : ∀ n, (CountBound.atLeast k).Admits n ↔ k.toNat ≤ n := by
      intro n
      simp only [CountBound.Admits]
      omega
    refine ⟨new, encodesCount_enumerated (fun R S => S ⊆ R) ht hset h ?_ ?_ ?_ ?_ ?_⟩
    · exact fun hb hlt => ⟨hlt, hb⟩
    · intro f E M N hval haux hM
      rw [Term.holds_subset, Term.eval_ref] at hM ⊢
      rw [← hval, ← haux]
      exact hM
    · intro f E M R S hR hS
      rw [Term.holds_subset, hR, Term.eval_ref, hS, TermValue.elements_set, TermValue.elements_set]
    · intro β R ds hfin hlen hnodup hRS
      rw [hadmits, le_ncard_iff_exists_list hfin]
      exact ⟨ds, hlen, hnodup rfl, hRS⟩
    · intro β R d₀ hfin hR
      rw [hadmits, le_ncard_iff_exists_list hfin] at hR
      obtain ⟨ds, hlen, hnodup, hsub⟩ := hR
      exact ⟨ds, hlen, fun _ => hnodup, fun d hd => .inl (hsub hd), hsub⟩

theorem encodeBound_returns
    (h : Returns (encodeBound set (relationSort cs) (.tuple (cs.map ColumnType.sort)) bound) p t q) :
    ∃ new, EncodesCount v x cs bound p t q new := by
  cases bound with
  | exactly k => exact exactly_returns ht hset h
  | atMost k => exact atMost_returns ht hset h
  | atLeast k => exact atLeast_returns ht hset h
  | beyond =>
    obtain ⟨rfl, rfl⟩ := returns_pure.mp h
    refine ⟨[], encodesCount_bool hset (fun n hn => ?_) fun hb => absurd hb Bool.false_ne_true⟩
    simp only [CountBound.Admits, Bool.false_eq_true, iff_false]
    omega

end Bounds

end Counted

/-! ## Comparisons -/

/-- What a comparison says of two numbers. -/
def Relates : Comparison → Int → Int → Prop
  | .eq, m, n => m = n
  | .ne, m, n => m ≠ n
  | .lt, m, n => m < n
  | .le, m, n => m ≤ n
  | .gt, m, n => m > n
  | .ge, m, n => m ≥ n

theorem relates_swapped (c : Comparison) (m n : Int) : Relates c.swapped m n ↔ Relates c n m := by
  cases c <;> simp only [Comparison.swapped, Relates, gt_iff_lt, ge_iff_le, eq_comm, ne_comm]

/-- The bound of a comparison with a number of 64 bits says what the
comparison says. -/
theorem admits_ofComparison {c : Comparison} {k : Int} {bound : CountBound}
    (hk : Text.fitsSigned64 k = true) (h : CountBound.ofComparison? c k = some bound) (n : Nat) :
    bound.Admits n ↔ Relates c n k := by
  simp only [Text.fitsSigned64, Bool.and_eq_true, decide_eq_true_eq] at hk
  cases c with
  | ne => cases h
  | eq | le | ge =>
    cases h
    exact Iff.rfl
  | lt =>
    cases h
    simp only [CountBound.Admits, Relates]
    omega
  | gt =>
    simp only [CountBound.ofComparison?, Option.some.injEq] at h
    split at h
    · subst h
      simp only [CountBound.Admits, Relates]
      omega
    · rename_i hfit
      subst h
      simp only [Text.fitsSigned64, Bool.and_eq_true, decide_eq_true_eq] at hfit
      simp only [CountBound.Admits, Relates]
      omega

theorem singleton_int_inj {α : Type} {m n : Int} :
    ({[.int m]} : Relation α) = {[.int n]} ↔ m = n := by
  rw [Set.singleton_eq_singleton_iff, List.cons.injEq, Cell.int.injEq]
  simp

theorem holds_comparison {α : Type} {I : Instance α} {env : Env α} {op : Relational.BinaryOp}
    {c : Comparison} {a b : Expr} {m n : Int} (hop : op.comparison? = some c)
    (ha : I.denote env a = {[.int m]}) (hb : I.denote env b = {[.int n]}) :
    I.Holds (.binary op a b) env ↔ Relates c m n := by
  have hcompares : ∀ {rel : Int → Int → Prop},
      (I.denote env a).Compares rel (I.denote env b) ↔ rel m n := by
    intro rel
    constructor
    · rintro ⟨m', n', hm, hn, h⟩
      rw [ha, singleton_int_inj] at hm
      rw [hb, singleton_int_inj] at hn
      exact hm ▸ hn ▸ h
    · exact fun h => ⟨m, n, ha, hb, h⟩
  have heq : I.denote env a = I.denote env b ↔ m = n := by rw [ha, hb, singleton_int_inj]
  cases op with
  | equals =>
    cases hop
    exact heq
  | notEquals =>
    cases hop
    exact not_congr heq
  | lt | le | gt | ge =>
    cases hop
    exact hcompares
  | _ => cases hop

/-- An operand that counts: what it counts, and what it denotes. -/
theorem counted_operand {a : Expr} {cs : List ColumnType} {scope : Scope}
    {enc : Encoder Encoded} (ht : HasColumns v.model a cs)
    (h : encodeCounted v a scope = some enc) :
    ∃ x ds, enc = relation (encode v x scope .nested) ∧ HasColumns v.model x ds ∧
      x ∈ a.counted ∧ ∀ {α : Type} (I : Instance α) (env : Env α),
        I.denote env a = {[.int (I.denote env x).ncard]} := by
  induction ht with
  | toInt _ ih | toSigned _ ih =>
    obtain ⟨x, ds, henc, hx, hmem, hden⟩ := ih h
    exact ⟨x, ds, henc, hx, hmem, hden⟩
  | @card x ds hx _ =>
    rw [encodeCounted, Option.some.injEq] at h
    refine ⟨x, ds, h.symm, hx, ?_, fun _ _ => rfl⟩
    rw [Expr.counted, if_pos rfl]
    exact List.mem_cons_self
  | _ => cases h

/-- A literal that is well typed is a number of 64 bits. -/
theorem fits_of_literal {m : Model} {b : Expr} {cs : List ColumnType} {k : Int}
    (ht : HasColumns m b cs) (h : b.literal? = some k) : Text.fitsSigned64 k = true := by
  induction ht with
  | int hfit =>
    cases h
    exact hfit
  | toInt _ ih | toSigned _ ih => exact ih h
  | _ => cases h

/-- A comparison of a counted relation with a number encodes its bound. -/
theorem encodesCount_returns {expr : String} {x : Expr} {ds : List ColumnType} {c : Comparison}
    {k : Int} (hx : HasColumns v.model x ds) (hv : Declared v p.script)
    (h : Returns (countComparison expr .top c k (relation (encode v x [] .nested))) p r q) :
    ∃ bound new, CountBound.ofComparison? c k = some bound ∧ r.witnesses = [] ∧
      EncodesCount v x ds bound p r.term q new := by
  obtain ⟨_, bound, set, _, element, t, hbound, hset, hsort, ht, rfl⟩ :=
    returns_countComparison.mp h
  obtain ⟨rfl, hnone, hset⟩ := plainRelation_encode hx hv (scopeIn_nil _) hset
  obtain ⟨rfl⟩ := Except.ok.inj (hset.sort.symm.trans hsort)
  obtain ⟨new, hnew⟩ := encodeBound_returns hx hset ht
  exact ⟨bound, new, hbound, hnone, hnew⟩

theorem countComparison_returns {expr : String} {e x : Expr} {ds : List ColumnType}
    {c : Comparison} {k : Int} (hx : HasColumns v.model x ds) (hk : Text.fitsSigned64 k = true)
    (hcounted : x ∈ e.counted)
    (he : ∀ {α : Type} {I : Instance α}, I.Holds e [] ↔ Relates c (I.denote [] x).ncard k) :
    FactMeaning v e (countComparison expr .top c k (relation (encode v x [] .nested))) := by
  intro p r q hv h
  obtain ⟨bound, new, hbound, hnone, hnew⟩ := encodesCount_returns hx hv h
  have hr : r = ⟨r.term, []⟩ := by rw [← hnone]
  rw [hr]
  refine ⟨new, hnew.top hx hcounted fun {α I} => ?_⟩
  rw [he, admits_ofComparison hk hbound]

/-- A comparison at the top of a fact in which a side counts. -/
theorem cardinality_returns {expr : String} {op : Relational.BinaryOp} {c : Comparison}
    {a b : Expr} {cs : List ColumnType} (hop : op.comparison? = some c)
    (ha : HasColumns v.model a cs) (hb : HasColumns v.model b cs) :
    FactMeaning v (.binary op a b) (cardinality expr .top c (encodeCounted v a [])
      (encodeCounted v b []) a.literal? b.literal?) := by
  intro p r q hv h
  unfold cardinality at h
  split at h
  · rename_i enc k henc hlit
    obtain ⟨x, ds, rfl, hx, hmem, hden⟩ := counted_operand ha henc
    refine countComparison_returns hx (fits_of_literal hb hlit) ?_ (fun {α I} => ?_) p r q hv h
    · rw [Expr.counted]
      exact List.mem_append_left _ hmem
    · exact holds_comparison hop (hden I []) (denote_of_literal I [] hlit)
  · split at h
    · rename_i enc k henc hlit
      obtain ⟨x, ds, rfl, hx, hmem, hden⟩ := counted_operand hb henc
      refine countComparison_returns hx (fits_of_literal ha hlit) ?_ (fun {α I} => ?_) p r q hv h
      · rw [Expr.counted]
        exact List.mem_append_right _ hmem
      · rw [relates_swapped]
        exact holds_comparison hop (denote_of_literal I [] hlit) (hden I [])
    · exact (not_returns_unsupported h).elim

/-- A comparison at the top of a fact. -/
theorem comparison_fact {op : Relational.BinaryOp} {a b : Expr} {cs : List ColumnType}
    (ha : HasColumns v.model a cs) (hb : HasColumns v.model b cs) (hand : op ≠ .and)
    (hplain : Meaning v [] (.binary op a b) (encode v (.binary op a b) [] .nested)) :
    FactMeaning v (.binary op a b) (encode v (.binary op a b) [] .top) := by
  have hsame : ∀ {x y z w : Encoder Encoded} {l r : Encoder Encoded},
      binaryExpr v op a b l r [x, y] = binaryExpr v op a b l r [z, w] := by
    cases op with
    | and => exact absurd rfl hand
    | _ => exact rfl
  intro p r q hv h
  have hn := hplain.fact p r q hv
  rw [encode] at h hn
  split at h
  · rename_i hop
    rw [hop] at hn
    exact hn (hsame ▸ h)
  · rename_i c hop
    dsimp only at h
    split at h
    · exact cardinality_returns hop ha hb p r q hv h
    · rename_i hcount
      rw [hop] at hn
      dsimp only at hn
      rw [if_neg hcount] at hn
      exact hn (hsame ▸ h)

theorem encodeAll_facts {es : List Expr}
    (h : ∀ e ∈ es, FactMeaning v e (encode v e [] .top)) :
    List.Forall₂ (FactMeaning v) es (encodeAll v es [] .top) := by
  induction es with
  | nil => exact .nil
  | cons e es ih =>
    rw [List.forall_mem_cons] at h
    exact .cons h.1 (ih h.2)

theorem counted_list {op : ListOp} {es : List Expr} :
    ∀ e ∈ es, e.counted ⊆ (Expr.list op es).counted := by
  intro e he
  rw [Expr.counted]
  induction es with
  | nil => cases he
  | cons e' es ih =>
    rw [countedAll]
    rcases List.mem_cons.mp he with rfl | he
    · exact List.subset_append_left _ _
    · exact List.Subset.trans (ih he) (List.subset_append_right _ _)

theorem involvesInt_and {m : Model} {a b : Expr} :
    ∀ e ∈ [a, b], InvolvesInt m e → InvolvesInt m (.binary .and a b) := by
  intro e he hi
  rcases List.mem_cons.mp he with rfl | he
  · exact .binary rfl (.inl hi)
  · exact .binary rfl (.inr (List.mem_singleton.mp he ▸ hi))

/-- The encoding of a fact, which counts only at its top. -/
theorem encode_fact {e : Expr} (h : WellTyped v.model e) :
    FactMeaning v e (encode v e [] .top) := by
  induction h with
  | multiplicity hop ht => exact (encode_meaning (.multiplicity hop ht) []).fact
  | not h _ => exact (encode_meaning (.not h) []).fact
  | relations hop ha hb =>
    refine comparison_fact ha hb ?_ (relations_encode hop ha hb)
    rintro rfl
    simp at hop
  | numbers hop ha hb =>
    refine comparison_fact ha hb ?_ (numbers_encode hop ha hb)
    rintro rfl
    simp at hop
  | @connective op a b hop ha hb iha ihb =>
    have hplain := (encode_meaning (.connective hop ha hb) []).fact
    simp only [List.mem_cons, List.not_mem_nil, or_false] at hop
    rcases hop with rfl | rfl | rfl | rfl
    · refine .conjunction (.cons iha (.cons ihb .nil)) ?_ involvesInt_and ?_
      · intro α I
        simp [Instance.Holds]
      · intro e he
        rw [Expr.counted]
        rcases List.mem_cons.mp he with rfl | he
        · exact List.subset_append_left _ _
        · rw [List.mem_singleton.mp he]
          exact List.subset_append_right _ _
    · exact hplain
    · exact hplain
    · exact hplain
  | @list op es h ih =>
    cases op with
    | and => exact .conjunction (encodeAll_facts ih) forall_meanings involvesInt_list counted_list
    | or => exact (encode_meaning (.list h) []).fact
  | quantified ht hne h _ => exact (encode_meaning (.quantified ht hne h) []).fact

end TupleLogic.Encoding
