import TupleLogic.Proofs.Witnesses

/-! Variables for the tuples of a relation. The values of one variable for each
column are the tuples with those columns: each is a tuple of atoms and
integers, and each such tuple is reached, as long as the elements of the
integer sorts reach all integers. -/

namespace TupleLogic.Encoding

open Relational Encoder

variable {v : Vocabulary} {p q : Progress}

theorem Progress.withVariable_size (p : Progress) (sort : TermSort) :
    (p.withVariable sort).script.arena.size = p.script.arena.size + 1 := Array.size_push _

theorem Progress.withVariable_decl {sort : TermSort} {f : Script}
    (hf : (p.withVariable sort).script.Extends f) :
    ∃ d, f.arena[p.script.arena.size]? = some d ∧ d.sort = sort :=
  ⟨_, hf.decl (p.script.addVariable_getElem? p.names.freshVariable.1 sort), rfl⟩

theorem Progress.withVariable_grows (p : Progress) (sort : TermSort) :
    p.script.AddsVariables (p.withVariable sort).script :=
  p.script.addsVariables_addVariable p.names.freshVariable.1 sort

/-- A new variable ranges over its sort. -/
theorem inDomain_withVariable {E : Type} {M : Structure E} {sort : TermSort} {f : Script}
    (hf : (p.withVariable sort).script.Extends f) (w : TermValue E) :
    M.InDomain f p.script.nextId w ↔ w.HasSort M.carrier sort := by
  obtain ⟨d, hd, rfl⟩ := p.withVariable_decl hf
  constructor
  · rintro ⟨d', hd', hw⟩
    rw [show p.script.nextId.index = p.script.arena.size from rfl, hd, Option.some.injEq] at hd'
    exact hd' ▸ hw
  · exact fun hw => ⟨d, hd, hw⟩

/-- What has a named sort is one of its elements. -/
theorem hasSort_named {E : Type} {carrier : String → Set E} {n : String} {w : TermValue E} :
    w.HasSort carrier (.named n) ↔ ∃ u ∈ carrier n, w = .datum (.elem u) := by
  constructor
  · intro h
    cases w with
    | set _ | truth _ => cases h
    | datum d =>
      cases d with
      | elem u => exact ⟨u, h, rfl⟩
      | int _ | tuple _ => cases h
  · rintro ⟨u, hu, rfl⟩
    exact hu

section Column

/-- The term takes, for the values of the variable `x`, the values of a column
of type `c`. -/
structure SamplesColumn (v : Vocabulary) (c : ColumnType) (p : Progress) (x : DeclId) (t : Term)
    (q : Progress) : Prop where
  grows : p.script.AddsVariables q.script
  var : x = p.script.nextId
  size : q.script.arena.size = p.script.arena.size + 1
  below : ∀ {f : Script}, q.script.Extends f → t.Below f q.script.arena.size
  sound : ∀ {f : Script} {α E : Type} {ι : α → E} {I : Instance α} {M : Structure E} {w : TermValue E},
    q.script.Extends f → Interprets v f ι I M → M.InDomain f x w →
      ∃ cell : Cell α, cell.type = c ∧ (t.eval f (M.set x w)).toDatum = cellDatum ι cell ∧
        ∀ n, cell = .int n → [n] ∈ intValues M f unaryInts
  complete : ∀ {f : Script} {α E : Type} {ι : α → E} {I : Instance α} {M : Structure E},
    q.script.Extends f → Interprets v f ι I M → (c = .int → Onto f M) →
      ∀ cell : Cell α, cell.type = c →
        ∃ w, M.InDomain f x w ∧ (t.eval f (M.set x w)).toDatum = cellDatum ι cell

theorem samplesColumn_atom (v : Vocabulary) (p : Progress) :
    SamplesColumn v .atom p p.script.nextId (.ref p.script.nextId) (p.withVariable .atom) where
  grows := p.withVariable_grows _
  var := rfl
  size := p.withVariable_size _
  below _ := by
    rw [p.withVariable_size]
    exact Nat.lt_succ_self _
  sound hf hM hw := by
    rw [inDomain_withVariable hf] at hw
    obtain ⟨u, hu, rfl⟩ := hasSort_named.mp hw
    rw [hM.atoms] at hu
    obtain ⟨a, rfl⟩ := hu
    exact ⟨.atom a, rfl, by rw [Term.eval_ref, Structure.meaning_set_self]; rfl, nofun⟩
  complete {f α E ι I M} hf hM _ cell hc := by
    cases cell with
    | int n => cases hc
    | atom a =>
      refine ⟨.datum (.elem (ι a)), (inDomain_withVariable hf _).mpr ?_, ?_⟩
      · exact hasSort_named.mpr ⟨ι a, hM.atoms ▸ ⟨a, rfl⟩, rfl⟩
      · rw [Term.eval_ref, Structure.meaning_set_self]
        rfl

/-- The value of a new variable over an integer sort. -/
theorem eval_intValue {s f : Script} (hv : Declared v s) (hf : s.Extends f) {w : IntSort}
    (hw : w ∈ intSorts) : ∃ d, f.lookup w.value = some d ∧ d.index < s.arena.size ∧
      ∀ {E : Type} (M : Structure E) (x : DeclId) (u : E), s.arena.size ≤ x.index →
        (w.valueOf (.ref x)).eval f (M.set x (.datum (.elem u))) = M.meaning d [.datum (.elem u)] := by
  obtain ⟨d, hd⟩ := hv.values w hw
  refine ⟨d, hf.lookup hd.1, hd.index_lt, fun M x u hx => ?_⟩
  have hne : d ≠ x := fun h => absurd hd.index_lt (by rw [h]; omega)
  rw [IntSort.valueOf, Term.eval_call (hf.lookup hd.1), Structure.meaning_set_of_ne M hne, List.map_cons,
    List.map_nil, Term.eval_ref, Structure.meaning_set_self]

theorem below_intValue {s f : Script} {n : Nat} (hv : Declared v s) (hf : s.Extends f)
    {w : IntSort} (hw : w ∈ intSorts) {x : DeclId} (hx : x.index < n) (hn : s.arena.size ≤ n) :
    (w.valueOf (.ref x)).Below f n := by
  obtain ⟨d, hd, hlt, _⟩ := eval_intValue hv hf hw
  refine ⟨fun id hid => ?_, hx, trivial⟩
  rw [hd, Option.some.injEq] at hid
  rw [← hid]
  omega

theorem samplesColumn_int (hv : Declared v p.script) :
    SamplesColumn v .int p p.script.nextId (.select 0 (unaryIntValue (.ref p.script.nextId)))
      (p.withVariable unaryIntSort) where
  grows := p.withVariable_grows _
  var := rfl
  size := p.withVariable_size _
  below hf := by
    have hpf := (p.withVariable_grows unaryIntSort).extension.trans hf
    refine ⟨trivial, below_intValue hv hpf (w := unaryInts) (by simp [intSorts]) ?_ ?_⟩
    · rw [p.withVariable_size]
      exact Nat.lt_succ_self _
    · rw [p.withVariable_size]
      exact Nat.le_succ _
  sound {f α E ι I M w} hf hM hw := by
    have hpf := (p.withVariable_grows unaryIntSort).extension.trans hf
    obtain ⟨d, hd, _, heval⟩ := eval_intValue hv hpf (w := unaryInts) (by simp [intSorts])
    rw [inDomain_withVariable hf] at hw
    obtain ⟨u, hu, rfl⟩ := hasSort_named.mp hw
    obtain ⟨ns, hns, hm⟩ := hM.values _ (by simp [intSorts]) d hd u hu
    obtain ⟨n, rfl⟩ := List.length_eq_one_iff.mp hns
    refine ⟨.int n, rfl, ?_, ?_⟩
    · have hval := heval M p.script.nextId u (Nat.le_refl _)
      rw [hm] at hval
      exact congrArg (fun w => (TermValue.column 0 w).toDatum) hval
    · intro _ h
      cases h
      exact ⟨d, hd, u, hu, hm⟩
  complete {f α E ι I M} hf hM honto cell hc := by
    have hpf := (p.withVariable_grows unaryIntSort).extension.trans hf
    obtain ⟨d, hd, _, heval⟩ := eval_intValue hv hpf (w := unaryInts) (by simp [intSorts])
    cases cell with
    | atom a => cases hc
    | int n =>
      obtain ⟨u, hu, hm⟩ := honto rfl _ (by simp [intSorts]) d hd [n] rfl
      refine ⟨.datum (.elem u), (inDomain_withVariable hf _).mpr ?_, ?_⟩
      · exact hasSort_named.mpr ⟨u, hu, rfl⟩
      · have hval := heval M p.script.nextId u (Nat.le_refl _)
        rw [hm] at hval
        exact congrArg (fun w => (TermValue.column 0 w).toDatum) hval

theorem specimenColumn_returns {expr : String} {c : ColumnType} {xt : DeclId × Term}
    (hv : Declared v p.script) (h : Returns (specimenColumn expr c.sort) p xt q) :
    SamplesColumn v c p xt.1 xt.2 q := by
  cases c with
  | atom =>
    simp only [ColumnType.sort, TermSort.atom, specimenColumn, returns_bind, returns_freshVariable,
      returns_pure] at h
    obtain ⟨x, _, ⟨rfl, rfl⟩, rfl, rfl⟩ := h
    exact samplesColumn_atom v p
  | int =>
    simp only [ColumnType.sort, specimenColumn, returns_bind, returns_freshVariable,
      returns_pure] at h
    obtain ⟨x, _, ⟨rfl, rfl⟩, rfl, rfl⟩ := h
    exact samplesColumn_int hv

end Column

/-- The terms take, for the values of the variables, the values of columns of
the types `cs`. -/
structure Samples (v : Vocabulary) (cs : List ColumnType) (p : Progress) (xs : List DeclId)
    (ts : List Term) (q : Progress) : Prop where
  grows : p.script.AddsVariables q.script
  length : xs.length = cs.length
  fresh : ∀ x ∈ xs, p.script.arena.size ≤ x.index ∧ x.index < q.script.arena.size
  below : ∀ {f : Script}, q.script.Extends f → ∀ t ∈ ts, t.Below f q.script.arena.size
  sound : ∀ {f : Script} {α E : Type} {ι : α → E} {I : Instance α} {M : Structure E}
    {ws : List (TermValue E)}, q.script.Extends f → Interprets v f ι I M → M.Fits f xs ws →
      ∃ cells : List (Cell α), cells.map Cell.type = cs ∧
        ts.map (fun t => (t.eval f (M.assign xs ws)).toDatum) = cells.map (cellDatum ι) ∧
        ∀ n, .int n ∈ cells → [n] ∈ intValues M f unaryInts
  complete : ∀ {f : Script} {α E : Type} {ι : α → E} {I : Instance α} {M : Structure E},
    q.script.Extends f → Interprets v f ι I M → (.int ∈ cs → Onto f M) →
      ∀ cells : List (Cell α), cells.map Cell.type = cs → ∃ ws, M.Fits f xs ws ∧
        ts.map (fun t => (t.eval f (M.assign xs ws)).toDatum) = cells.map (cellDatum ι)

theorem samples_nil (v : Vocabulary) (p : Progress) : Samples v [] p [] [] p where
  grows := .refl _
  length := rfl
  fresh := nofun
  below _ := nofun
  sound _ _ _ := ⟨[], rfl, rfl, nofun⟩
  complete _ _ _ cells hcells := by
    rw [List.map_eq_nil_iff.mp hcells]
    exact ⟨[], .nil, rfl⟩

theorem samples_cons {r : Progress} {c : ColumnType} {cs : List ColumnType} {x : DeclId}
    {xs : List DeclId} {t : Term} {ts : List Term} (hv : Declared v p.script)
    (h : SamplesColumn v c p x t r) (hs : Samples v cs r xs ts q) :
    Samples v (c :: cs) p (x :: xs) (t :: ts) q := by
  have hx : ∀ {E : Type} (M : Structure E) (w : TermValue E),
      M.Agrees p.script.arena.size (M.set x w) := by
    intro E M w
    refine M.agrees_set w ?_
    rw [h.var]
    exact Nat.le_refl _
  -- Later variables come after everything that `t` mentions.
  have ht : ∀ {f : Script} {E : Type} (M : Structure E) (w : TermValue E) (ws : List (TermValue E)),
      q.script.Extends f →
      t.eval f ((M.set x w).assign xs ws) = t.eval f (M.set x w) := fun M w ws hf =>
    (Term.eval_congr t (h.below (hs.grows.extension.trans hf))
      ((M.set x w).agrees_assign ws fun y hy => (hs.fresh y hy).1)).symm
  refine ⟨h.grows.trans hs.grows, congrArg (· + 1) hs.length, ?_, ?_, ?_, ?_⟩
  · have hx : x.index = p.script.arena.size := congrArg DeclId.index h.var
    have hle := hs.grows.extension.size_le
    have hsize := h.size
    intro y hy
    rcases List.mem_cons.mp hy with rfl | hy
    · omega
    · have := hs.fresh y hy
      omega
  · intro f hf u hu
    rcases List.mem_cons.mp hu with rfl | hu
    · exact (h.below (hs.grows.extension.trans hf)).mono hs.grows.extension.size_le
    · exact hs.below hf u hu
  · intro f α E ι I M ws hf hM hfit
    cases hfit with
    | @cons _ w _ ws hw hws =>
      have hrf := hs.grows.extension.trans hf
      have hpf := h.grows.extension.trans hrf
      obtain ⟨cell, hcell, heval, hvalue⟩ := h.sound hrf hM hw
      obtain ⟨cells, hcells, hevals, hvalues⟩ := hs.sound hf (hM.agrees hv hpf (hx M w)) hws
      rw [intValues_agrees hv hpf (hx M w) (by simp [intSorts])] at hvalues
      refine ⟨cell :: cells, by rw [List.map_cons, hcell, hcells], ?_, fun n hn => ?_⟩
      · rw [List.map_cons, List.map_cons, Structure.assign, hevals, ht M w ws hf, heval]
      · rcases List.mem_cons.mp hn with hn | hn
        · exact hvalue n hn.symm
        · exact hvalues n hn
  · intro f α E ι I M hf hM honto cells hcells
    cases cells with
    | nil => cases hcells
    | cons cell cells =>
      rw [List.map_cons, List.cons.injEq] at hcells
      have hrf := hs.grows.extension.trans hf
      have hpf := h.grows.extension.trans hrf
      obtain ⟨w, hw, heval⟩ := h.complete hrf hM (fun hc => honto (by simp [hc])) cell hcells.1
      have hM' := hM.agrees hv hpf (hx M w)
      obtain ⟨ws, hws, hevals⟩ := hs.complete hf hM'
        (fun hc => (honto (List.mem_cons_of_mem _ hc)).agrees hv hpf (hx M w)) cells hcells.2
      refine ⟨w :: ws, .cons hw hws, ?_⟩
      rw [List.map_cons, List.map_cons, Structure.assign, hevals, ht M w ws hf, heval]

theorem specimenColumns_returns {expr : String} {cs : List ColumnType}
    {elements : List (DeclId × Term)} (hv : Declared v p.script)
    (h : Returns ((cs.map ColumnType.sort).mapM (specimenColumn expr)) p elements q) :
    Samples v cs p (elements.map Prod.fst) (elements.map Prod.snd) q := by
  induction cs generalizing p elements with
  | nil =>
    obtain ⟨rfl, rfl⟩ := returns_mapM_nil.mp h
    exact samples_nil v q
  | cons c cs ih =>
    obtain ⟨xt, r, rest, hc, hcs, rfl⟩ := returns_mapM_cons.mp h
    have hcol := specimenColumn_returns hv hc
    exact samples_cons hv hcol (ih (hv.extend hcol.grows.extension) hcs)

theorem mkTuple_eq_ok {ts : List Term} {t : Term} (h : Term.mkTuple ts = .ok t) :
    t = .nary .tuple ts := by
  unfold Term.mkTuple at h
  split at h
  · cases h
  · exact (Except.ok.inj h).symm

theorem specimen_returns {expr : String} {cs : List ColumnType} {sample : Specimen}
    (hv : Declared v p.script) (h : Returns (specimen expr (relationSort cs)) p sample q) :
    ∃ ts, sample.tuple = .nary .tuple ts ∧ sample.allInt = cs.all (· = .int) ∧
      Samples v cs p sample.vars ts q := by
  have hcols : (relationSort cs).columns? = some (cs.map ColumnType.sort) := rfl
  simp only [specimen, hcols, returns_bind, returns_liftTerm, returns_pure] at h
  obtain ⟨elements, _, hel, tuple, _, ⟨ht, rfl⟩, rfl, rfl⟩ := h
  refine ⟨_, mkTuple_eq_ok ht, ?_, specimenColumns_returns hv hel⟩
  have hint : ∀ c : ColumnType, decide (c.sort = .int) = decide (c = .int) := by
    intro c
    cases c <;> rfl
  simp only [List.all_map, Function.comp_def, hint]

/-! ## Claims that a tuple bears witness to -/

section Claims

variable {cs : List ColumnType} {xs : List DeclId} {ts : List Term} {f : Script} {α E : Type}
  {ι : α → E} {I : Instance α} {M : Structure E} {claim : Term} {G : List (Cell α) → Prop}

/-- A claim about a tuple holds for some values of the variables if it does
for some tuple with those columns. -/
theorem exists_sample (hs : Samples v cs p xs ts q) (hf : q.script.Extends f)
    (hM : Interprets v f ι I M) (honto : .int ∈ cs → Onto f M)
    (hclaim : ∀ {ws cells}, (Term.nary .tuple ts).eval f (M.assign xs ws) =
      .datum (.tuple (cells.map (cellDatum ι))) → (claim.Holds f (M.assign xs ws) ↔ G cells)) :
    (∃ ws, M.Fits f xs ws ∧ claim.Holds f (M.assign xs ws)) ↔
      ∃ cells, cells.map Cell.type = cs ∧ G cells := by
  constructor
  · rintro ⟨ws, hfit, hws⟩
    obtain ⟨cells, hcells, heval, _⟩ := hs.sound hf hM hfit
    refine ⟨cells, hcells, (hclaim ?_).mp hws⟩
    rw [Term.eval_tuple, heval]
  · rintro ⟨cells, hcells, hG⟩
    obtain ⟨ws, hfit, heval⟩ := hs.complete hf hM honto cells hcells
    refine ⟨ws, hfit, (hclaim ?_).mpr hG⟩
    rw [Term.eval_tuple, heval]

/-- Tuples of integers only. -/
theorem eq_map_int_of_types {cells : List (Cell α)} {n : Nat}
    (h : cells.map Cell.type = List.replicate n .int) :
    ∃ ns : List Int, ns.length = n ∧ cells = ns.map .int := by
  induction n generalizing cells with
  | zero => exact ⟨[], rfl, List.map_eq_nil_iff.mp h⟩
  | succ n ih =>
    cases cells with
    | nil => cases h
    | cons cell cells =>
      rw [List.map_cons, List.replicate_succ, List.cons.injEq] at h
      obtain ⟨ns, hns, rfl⟩ := ih h.2
      cases cell with
      | atom a => cases h.1
      | int k => exact ⟨k :: ns, by rw [List.length_cons, hns], rfl⟩

/-- The claim with a companion says that the companion stands for the tuple. -/
theorem holds_companion {w : IntSort} (hw : w ∈ intSorts) (hv : Declared v p.script)
    (hs : Samples v cs p xs ts q) (hf : q.script.Extends f)
    (hbelow : claim.Below f q.script.arena.size) :
    ∃ d, f.lookup w.value = some d ∧ ∀ (M : Structure E) (ws : List (TermValue E)) (u : E),
      (Term.and claim (.equals (w.valueOf (.ref q.script.nextId)) (.nary .tuple ts))).Holds f
          ((M.assign xs ws).set q.script.nextId (.datum (.elem u))) ↔
        claim.Holds f (M.assign xs ws) ∧
          M.meaning d [.datum (.elem u)] = (Term.nary .tuple ts).eval f (M.assign xs ws) := by
  have hpf := hs.grows.extension.trans hf
  obtain ⟨d, hd, _, hval⟩ := eval_intValue (hv.extend hs.grows.extension) hf hw
  refine ⟨d, hd, fun M ws u => ?_⟩
  have hset : (M.assign xs ws).Agrees q.script.arena.size
      ((M.assign xs ws).set q.script.nextId (.datum (.elem u))) :=
    (M.assign xs ws).agrees_set _ (Nat.le_refl _)
  have hassign : (M.assign xs ws).meaning d [.datum (.elem u)] = M.meaning d [.datum (.elem u)] := by
    obtain ⟨d', hd'⟩ := hv.values w hw
    have hdd : d = d' := Option.some.inj (hd.symm.trans (hpf.lookup hd'.1))
    rw [(M.agrees_assign ws fun x hx => (hs.fresh x hx).1).2 d (hdd ▸ hd'.index_lt)]
  rw [Term.holds_and, Term.holds_equals, hval _ q.script.nextId u (Nat.le_refl _), hassign,
    Term.holds_congr hbelow hset, Term.eval_congr (.nary .tuple ts)
      (Term.belowAll_iff.mpr (hs.below hf)) hset]

theorem fits_companion {w : IntSort} (hf : (q.withVariable (.named w.sort)).script.Extends f)
    {us : List (TermValue E)} (h : M.Fits f (xs ++ [q.script.nextId]) us) :
    ∃ ws, ∃ u ∈ M.carrier w.sort, us = ws ++ [.datum (.elem u)] ∧ M.Fits f xs ws := by
  obtain ⟨ws, us, rfl, hws, hus⟩ := fits_append.mp h
  obtain ⟨value, _, hvalue, hnil, rfl⟩ := List.forall₂_cons_left_iff.mp hus
  cases hnil
  obtain ⟨u, hu, rfl⟩ := hasSort_named.mp ((inDomain_withVariable hf _).mp hvalue)
  exact ⟨ws, u, hu, rfl, hws⟩

/-- Where each tuple of integers is the value of an element, it makes no
difference to ask for that element too. -/
theorem exists_companion {w : IntSort} (hw : w ∈ intSorts) (hv : Declared v p.script)
    (hs : Samples v (List.replicate w.width .int) p xs ts q)
    (hf : (q.withVariable (.named w.sort)).script.Extends f) (hM : Interprets v f ι I M)
    (honto : Onto f M) (hbelow : claim.Below f q.script.arena.size) :
    (∃ us, M.Fits f (xs ++ [q.script.nextId]) us ∧
      (Term.and claim (.equals (w.valueOf (.ref q.script.nextId)) (.nary .tuple ts))).Holds f
        (M.assign (xs ++ [q.script.nextId]) us)) ↔
      ∃ ws, M.Fits f xs ws ∧ claim.Holds f (M.assign xs ws) := by
  have hqf := (q.withVariable_grows (.named w.sort)).extension.trans hf
  obtain ⟨d, hd, hiff⟩ := holds_companion hw hv hs hqf hbelow
  constructor
  · rintro ⟨_, hfit, hclaim⟩
    obtain ⟨ws, u, _, rfl, hws⟩ := fits_companion hf hfit
    rw [M.assign_append hws.length_eq] at hclaim
    exact ⟨ws, hws, ((hiff M ws u).mp hclaim).1⟩
  · rintro ⟨ws, hws, hclaim⟩
    obtain ⟨cells, hcells, heval, _⟩ := hs.sound hqf hM hws
    obtain ⟨ns, hns, rfl⟩ := eq_map_int_of_types hcells
    obtain ⟨u, hu, hm⟩ := honto w hw d hd ns hns
    refine ⟨ws ++ [.datum (.elem u)], fits_append.mpr ⟨ws, _, rfl, hws, .cons ?_ .nil⟩, ?_⟩
    · exact (inDomain_withVariable hf _).mpr (hasSort_named.mpr ⟨u, hu, rfl⟩)
    · rw [M.assign_append hws.length_eq]
      refine (hiff M ws u).mpr ⟨hclaim, ?_⟩
      rw [hm, Term.eval_tuple, heval, map_cellDatum_int]
      rfl

end Claims

end TupleLogic.Encoding
