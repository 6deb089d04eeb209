import TupleLogic.Proofs.ReaderOutput
import TupleLogic.Proofs.SameText

/-! Printing normalizes what was read. A script from a text is printed unless it
mentions a sort that solvers do not know or the name of an assertion breaks the
line; and the print is read as the same script again, up to the positions of
declarations, in a text that stays the same from then on. -/

namespace TupleLogic

/-! ## Sorts that are mentioned -/

namespace TermSort

mutual
/-- A sort and all sorts inside it. -/
def parts : TermSort → List TermSort
  | .set e => .set e :: e.parts
  | .tuple cs => .tuple cs :: partsAll cs
  | sort => [sort]

def partsAll : List TermSort → List TermSort
  | [] => []
  | c :: cs => c.parts ++ partsAll cs
end

variable {declared : String → Bool}

mutual
/-- Only two sorts cannot be printed. -/
theorem printable_of_known (hdeclared : ∀ {n}, declared n = true → Symbol.writable n = true) :
    ∀ {sort : TermSort}, sort.known declared = true → .real ∉ sort.parts → .string ∉ sort.parts →
      sort.printable = true
  | .named n, h, _, _ => hdeclared h
  | .set e, h, hreal, hstring => by
    rw [known, Bool.and_eq_true] at h
    rw [parts, List.mem_cons, not_or] at hreal hstring
    rw [printable]
    exact printable_of_known hdeclared h.2 hreal.2 hstring.2
  | .tuple cs, h, hreal, hstring => by
    rw [known, Bool.and_eq_true] at h
    rw [parts, List.mem_cons, not_or] at hreal hstring
    rw [printable, h.1, printableAll_of_known hdeclared h.2 hreal.2 hstring.2]
    rfl
  | .int, _, _, _ | .bool, _, _, _ => rfl
  | .real, _, hreal, _ => absurd (List.mem_singleton.mpr rfl) hreal
  | .string, _, _, hstring => absurd (List.mem_singleton.mpr rfl) hstring

theorem printableAll_of_known (hdeclared : ∀ {n}, declared n = true → Symbol.writable n = true) :
    ∀ {sorts : List TermSort}, knownAll declared sorts = true → .real ∉ partsAll sorts →
      .string ∉ partsAll sorts → printableAll sorts = true
  | [], _, _, _ => rfl
  | c :: cs, h, hreal, hstring => by
    rw [knownAll, Bool.and_eq_true] at h
    rw [partsAll, List.mem_append, not_or] at hreal hstring
    rw [printableAll, printable_of_known hdeclared h.1 hreal.1 hstring.1,
      printableAll_of_known hdeclared h.2 hreal.2 hstring.2]
    rfl
end

mutual
/-- Only a declared sort with a builtin name is read as something else. -/
theorem legible_of_known : ∀ {sort : TermSort}, sort.known declared = true →
    (∀ b ∈ builtinSorts, .named b ∉ sort.parts) → sort.legible declared = true
  | .named n, h, hbuiltin => by
    have hn : n ∉ builtinSorts := fun hn => hbuiltin n hn (List.mem_singleton.mpr rfl)
    rw [known] at h
    simp [legible, h, hn]
  | .set e, h, hbuiltin => by
    rw [known, Bool.and_eq_true] at h
    rw [legible, h.1, legible_of_known h.2 fun b hb hmem => hbuiltin b hb (.tail _ hmem)]
    rfl
  | .tuple cs, h, hbuiltin => by
    rw [known, Bool.and_eq_true] at h
    rw [legible, h.1, legibleAll_of_known h.2 fun b hb hmem => hbuiltin b hb (.tail _ hmem)]
    rfl
  | .int, _, _ | .bool, _, _ | .real, _, _ | .string, _, _ => rfl

theorem legibleAll_of_known : ∀ {sorts : List TermSort}, knownAll declared sorts = true →
    (∀ b ∈ builtinSorts, .named b ∉ partsAll sorts) → legibleAll declared sorts = true
  | [], _, _ => rfl
  | c :: cs, h, hbuiltin => by
    rw [knownAll, Bool.and_eq_true] at h
    rw [legibleAll,
      legible_of_known h.1 fun b hb hmem => hbuiltin b hb (List.mem_append_left _ hmem),
      legibleAll_of_known h.2 fun b hb hmem => hbuiltin b hb (List.mem_append_right _ hmem)]
    rfl
end

end TermSort

mutual
/-- The sorts of the set literals in a term. -/
def Term.literalSorts : Term → List TermSort
  | .ref _ | .int _ | .bool _ => []
  | .emptySet sort | .fullSet sort => [sort]
  | .unary _ a => a.literalSorts
  | .binary _ a b => a.literalSorts ++ b.literalSorts
  | .nary _ args | .call _ args => literalSortsAll args
  | .quantified _ _ body => body.literalSorts
  | .ite c a b => c.literalSorts ++ a.literalSorts ++ b.literalSorts

def Term.literalSortsAll : List Term → List TermSort
  | [] => []
  | t :: ts => t.literalSorts ++ literalSortsAll ts
end

def Declaration.sorts : Declaration → List TermSort
  | .function _ inputs output => inputs ++ [output]
  | .constant _ sort | .variable _ sort => [sort]
  | .definition _ _ output body => output :: body.literalSorts

namespace Script

/-- The sorts that are written down in declarations, at bound variables and in
terms. -/
def writtenSorts (s : Script) : List TermSort :=
  s.arena.toList.flatMap Declaration.sorts ++ s.assertions.flatMap (·.formula.literalSorts)

def mentions (s : Script) (sort : TermSort) : Bool := s.writtenSorts.any (·.parts.contains sort)

theorem not_mem_parts {s : Script} {sort written : TermSort} (h : s.mentions sort = false)
    (hwritten : written ∈ s.writtenSorts) : sort ∉ written.parts := by
  simp only [mentions, List.any_eq_false, List.contains_iff_mem] at h
  exact h written hwritten

theorem sorts_written {s : Script} {i : Nat} {d : Declaration} (hd : s.arena[i]? = some d)
    {sort : TermSort} (h : sort ∈ d.sorts) : sort ∈ s.writtenSorts := by
  have hmem : d ∈ s.arena.toList := Array.mem_toList_iff.mpr (Array.mem_of_getElem? hd)
  exact List.mem_append_left _ (List.mem_flatMap.mpr ⟨d, hmem, h⟩)

end Script

/-! ## Usages restricted to sorts that are written down -/

def Usage.within (u : Usage) (sorts : List TermSort) : Usage :=
  { u with sort := fun sort => u.sort sort && sorts.contains sort }

section Within

variable {u : Usage} {sorts : List TermSort}

mutual
theorem Term.conforms_within : ∀ {t : Term} {bound : List DeclId}, t.conforms u bound = true →
    (∀ sort ∈ t.literalSorts, sort ∈ sorts) → t.conforms (u.within sorts) bound = true
  | .ref _, bound, h, _ | .int _, bound, h, _ => h
  | .bool _, bound, _, _ => rfl
  | .emptySet sort, bound, h, hsorts | .fullSet sort, bound, h, hsorts => by
    have hsort : sort ∈ sorts := hsorts sort (List.mem_singleton.mpr rfl)
    rw [conforms, Bool.and_eq_true] at h ⊢
    exact ⟨h.1, Bool.and_eq_true_iff.mpr ⟨h.2, List.contains_iff_mem.mpr hsort⟩⟩
  | .unary _ a, bound, h, hsorts => by
    rw [conforms] at h ⊢
    exact conforms_within h hsorts
  | .binary op a b, bound, h, hsorts => by
    rw [literalSorts, List.forall_mem_append] at hsorts
    rw [conforms, Bool.and_eq_true] at h ⊢
    refine ⟨?_, conforms_within h.2 hsorts.2⟩
    by_cases hop : op = .select
    · rw [if_pos hop] at h ⊢
      exact h.1
    · rw [if_neg hop] at h ⊢
      exact conforms_within h.1 hsorts.1
  | .nary _ args, bound, h, hsorts => by
    rw [conforms, Bool.and_eq_true] at h ⊢
    exact ⟨h.1, conformsAll_within h.2 hsorts⟩
  | .call _ args, bound, h, hsorts => by
    rw [conforms, Bool.and_eq_true] at h ⊢
    exact ⟨h.1, conformsAll_within h.2 hsorts⟩
  | .quantified _ _ body, bound, h, hsorts => by
    rw [conforms, Bool.and_eq_true] at h ⊢
    exact ⟨h.1, conforms_within h.2 hsorts⟩
  | .ite c a b, bound, h, hsorts => by
    rw [literalSorts, List.forall_mem_append, List.forall_mem_append] at hsorts
    simp only [conforms, Bool.and_eq_true] at h ⊢
    exact ⟨⟨conforms_within h.1.1 hsorts.1.1, conforms_within h.1.2 hsorts.1.2⟩,
      conforms_within h.2 hsorts.2⟩

theorem Term.conformsAll_within : ∀ {ts : List Term} {bound : List DeclId},
    conformsAll u bound ts = true → (∀ sort ∈ literalSortsAll ts, sort ∈ sorts) →
      conformsAll (u.within sorts) bound ts = true
  | [], bound, _, _ => rfl
  | t :: ts, bound, h, hsorts => by
    rw [literalSortsAll, List.forall_mem_append] at hsorts
    rw [conformsAll, Bool.and_eq_true] at h ⊢
    exact ⟨conforms_within h.1 hsorts.1, conformsAll_within h.2 hsorts.2⟩
end

theorem Declaration.conforms_within : ∀ {d : Declaration}, d.conforms u = true →
    (∀ sort ∈ d.sorts, sort ∈ sorts) → d.conforms (u.within sorts) = true
  | .function _ inputs output, h, hsorts => by
    simp only [Declaration.sorts, List.forall_mem_append, List.forall_mem_singleton] at hsorts
    simp only [conforms, Usage.within, Bool.and_eq_true, List.all_eq_true, List.contains_iff_mem]
      at h ⊢
    exact ⟨⟨h.1.1, fun i hi => ⟨h.1.2 i hi, hsorts.1 i hi⟩⟩, h.2, hsorts.2⟩
  | .constant _ sort, h, hsorts => by
    have hsort : sort ∈ sorts := hsorts sort (List.mem_singleton.mpr rfl)
    simp only [conforms, Usage.within, Bool.and_eq_true, List.contains_iff_mem] at h ⊢
    exact ⟨h.1, h.2, hsort⟩
  | .definition _ parameters output body, h, hsorts => by
    simp only [Declaration.sorts, List.forall_mem_cons] at hsorts
    simp only [conforms, Bool.and_eq_true] at h ⊢
    exact ⟨⟨h.1.1, Bool.and_eq_true_iff.mpr ⟨h.1.2, List.contains_iff_mem.mpr hsorts.1⟩⟩,
      Term.conforms_within h.2 hsorts.2⟩

end Within

namespace Script

variable {s : Script}

theorem conforms_within {u : Nat → Usage} {label : String → Bool} (h : s.conforms u label = true) :
    s.conforms (fun i => (u i).within s.writtenSorts) label = true := by
  obtain ⟨hsorts, hdecls, hasserts⟩ := conforms_iff.mp h
  refine conforms_iff.mpr ⟨hsorts, fun id hid => ?_, fun a ha => ⟨(hasserts a ha).1, ?_⟩⟩
  · obtain ⟨d, hd, hconf⟩ := hdecls id hid
    exact ⟨d, hd, Declaration.conforms_within hconf fun sort => sorts_written hd⟩
  · refine Term.conforms_within (hasserts a ha).2 fun sort hsort => ?_
    exact List.mem_append_right _ (List.mem_flatMap.mpr ⟨a, ha, hsort⟩)

/-! ## What is understood can be said again -/

open TupleLogic.Symbol (writable)

theorem Understood.writable_sort (h : s.Understood) {n : String} (hn : s.declaresSort n = true) :
    writable n = true := by
  simp only [declaresSort, sortDeclaration?, List.find?_isSome, decide_eq_true_eq] at hn
  obtain ⟨d, hd, rfl⟩ := hn
  exact ((conforms_iff.mp h.conforms).1 d hd).1

/-- A reference goes to something that is there. -/
theorem exists_of_ref {limit : Nat} {bound bound' : List DeclId} {id : DeclId}
    (hbound : (s.understood limit).Binds bound bound') (h : id ∈ bound ∨ s.precedes limit id = true) :
    ∃ d, s.arena[id.index]? = some d := by
  rcases h with hid | hprecedes
  · obtain ⟨name, sort, hd, _⟩ := binder_understood (hbound.2 id hid)
    exact ⟨_, hd⟩
  · obtain ⟨d, hd, _⟩ := exists_of_precedes hprecedes
    exact ⟨d, hd⟩

theorem understood_printable (hs : s.Understood) (hreal : s.mentions .real = false)
    (hstring : s.mentions .string = false) (limit : Nat) :
    ((s.understood limit).within s.writtenSorts).Implies s.printable
      (s.understood limit).Binds where
  name h := h
  sort h := by
    simp only [Usage.within, Bool.and_eq_true, List.contains_iff_mem] at h
    exact TermSort.printable_of_known hs.writable_sort h.1 (not_mem_parts hreal h.2)
      (not_mem_parts hstring h.2)
  binder {id} h := by
    change (s.understood limit).binder id = true at h
    obtain ⟨name, sort, hd, hname, hknown⟩ := binder_understood h
    have hwritten : sort ∈ s.writtenSorts := sorts_written hd (List.mem_singleton.mpr rfl)
    have hsort := TermSort.printable_of_known hs.writable_sort hknown (not_mem_parts hreal hwritten)
      (not_mem_parts hstring hwritten)
    simp only [printable, hd, hname, hsort, Bool.and_self]
  ref := by
    intro bound bound' id hbound h
    simp only [Usage.within, understood, Bool.and_eq_true, Bool.or_eq_true, List.contains_iff_mem]
      at h
    obtain ⟨⟨⟨hscope, hname⟩, _⟩, _⟩ := h
    obtain ⟨d, hd⟩ := exists_of_ref hbound hscope
    rw [nameOf_eq hd] at hname
    simp [printable, hd, hname]
  call h := by
    simp only [Usage.within, understood, Bool.and_eq_true] at h
    exact h.1.1.1
  closed := Usage.binds_nil _
  enter := Usage.Binds.enter

theorem understood_legible (hs : s.Understood) (hminus : s.lookup "-" = none)
    (has : s.lookup "as" = none) (hbuiltin : ∀ b ∈ builtinSorts, s.mentions (.named b) = false)
    (limit : Nat) :
    ((s.understood limit).within s.writtenSorts).Implies (s.legible limit)
      (s.understood limit).Binds where
  name _ := rfl
  sort h := by
    simp only [Usage.within, Bool.and_eq_true, List.contains_iff_mem] at h
    exact TermSort.legible_of_known h.1 fun b hb => not_mem_parts (hbuiltin b hb) h.2
  binder {id} h := by
    change (s.understood limit).binder id = true at h
    obtain ⟨name, sort, hd, _, hknown⟩ := binder_understood h
    have hwritten : sort ∈ s.writtenSorts := sorts_written hd (List.mem_singleton.mpr rfl)
    have hsort := TermSort.legible_of_known hknown fun b hb => not_mem_parts (hbuiltin b hb) hwritten
    simp only [legible, hd, hsort]
  ref := by
    intro bound bound' id hbound h
    simp only [Usage.within, understood, Bool.and_eq_true, Bool.or_eq_true, List.contains_iff_mem]
      at h
    rw [← hbound.1]
    simp only [legible, Bool.or_eq_true, List.any_eq_true, decide_eq_true_eq, Option.any_eq_true]
    rcases h.1.1.1 with hid | hprecedes
    · exact .inl (.inr ⟨id, hid, rfl⟩)
    · obtain ⟨d, hd, hkind⟩ := exists_of_precedes hprecedes
      have hlookup := hs.coherent.lookup.mpr ⟨d, hd, rfl, hkind⟩
      rw [← nameOf_eq hd] at hlookup
      exact .inr ⟨id, hlookup, hprecedes⟩
  call := by
    intro f args h
    simp only [Usage.within, understood, Bool.and_eq_true, Bool.or_eq_true, decide_eq_true_eq] at h
    obtain ⟨⟨⟨_, happlied⟩, hoperator⟩, hlookup⟩ := h
    have happlied : applied f (args.map Term.shape) = true := by
      refine happlied.resolve_right fun hf => ?_
      rcases hf with rfl | rfl
      · rw [hminus] at hlookup
        cases hlookup
      · rw [has] at hlookup
        cases hlookup
    simp only [legible, happlied, hoperator, hlookup, Bool.and_self]
  closed := Usage.binds_nil _
  enter := Usage.Binds.enter

/-- No variable hides a value of a solver. -/
theorem understood_faithful (hs : s.Understood)
    (hvariables : ∀ d ∈ s.arena.toList, d.kind = .variable → isSolverName d.name = false)
    (limit : Nat) :
    (s.understood limit).Implies s.faithful (s.understood limit).Binds where
  name _ := rfl
  sort _ := rfl
  binder _ := rfl
  ref := by
    intro bound bound' id hbound h
    simp only [understood, Bool.and_eq_true, Bool.or_eq_true, List.contains_iff_mem,
      decide_eq_true_eq] at h
    obtain ⟨⟨⟨hscope, _⟩, hliteral⟩, hleads⟩ := h
    have hbinder : ∀ b ∈ bound, isSolverName (s.nameOf b) = false := fun b hb => by
      obtain ⟨name, sort, hd, _⟩ := binder_understood (hbound.2 b hb)
      rw [nameOf_eq hd]
      exact hvariables _ (Array.mem_toList_iff.mpr (Array.mem_of_getElem? hd)) rfl
    rw [← hbound.1]
    simp only [faithful, hliteral, Bool.true_and, decide_eq_true_eq]
    rcases hleads with hresolve | hsolver
    · exact hresolve
    have hprecedes : s.precedes limit id = true := by
      refine hscope.resolve_left fun hid => ?_
      rw [hbinder id hid] at hsolver
      cases hsolver
    obtain ⟨d, hd, hkind⟩ := exists_of_precedes hprecedes
    have hnone : bound.find? (fun b => s.nameOf b = s.nameOf id) = none := by
      rw [List.find?_eq_none]
      intro b hb hname
      have hfalse := hbinder b hb
      rw [decide_eq_true_eq.mp hname, hsolver] at hfalse
      cases hfalse
    rw [resolve, hnone, nameOf_eq hd]
    exact hs.coherent.lookup.mpr ⟨d, hd, rfl, hkind⟩
  call _ := rfl
  closed := Usage.binds_nil _
  enter := Usage.Binds.enter

/-! ## Printing what was read -/

theorem isOneLine_of_isPlainComment {name : String} (h : isPlainComment name = true)
    (hreturn : '\r' ∉ name.toList) : isOneLine name = true := by
  simp only [isPlainComment, Bool.and_eq_true, List.all_eq_true, Token.isCommentChar] at h
  simp only [isOneLine, List.all_eq_true, Bool.and_eq_true, bne_iff_ne]
  intro c hc
  refine ⟨bne_iff_ne.mp (h.1.1 c hc), ?_⟩
  rintro rfl
  exact hreturn hc

theorem Understood.print (hs : s.Understood) (hreal : s.mentions .real = false)
    (hstring : s.mentions .string = false)
    (hnames : ∀ a ∈ s.assertions, ∀ n ∈ a.name, '\r' ∉ n.toList) (width : Nat) :
    ∃ text, s.print width = .ok text := by
  have hprintable : s.conforms (fun _ => s.printable) isPlainComment = true :=
    conforms_mono (understood_printable hs hreal hstring) (fun _ h => h) (conforms_within hs.conforms)
  obtain ⟨hsorts, hdecls, hasserts⟩ := conforms_iff.mp hprintable
  refine print_of_printable (conforms_iff.mpr ⟨hsorts, hdecls, fun a ha => ⟨fun n hn => ?_, ?_⟩⟩) width
  · exact isOneLine_of_isPlainComment ((hasserts a ha).1 n hn) (hnames a ha n hn)
  · exact (hasserts a ha).2

/-- A script that was read from a text is printed, unless it mentions reals or
strings or has a name with a carriage return. The print is read as the same
script, with functions before constants and these before definitions, unless a
name means something else the second time: a declared `-` or `as`, a variable
that hides a value of a solver, or a sort that is named like a builtin one. -/
theorem read_print_of_read {source : String} {p : Script} (h : read .script source = .ok p)
    (width : Nat) :
    (p.mentions .real = false → p.mentions .string = false →
      (∀ a ∈ p.assertions, ∀ n ∈ a.name, '\r' ∉ n.toList) →
        ∃ printed, p.print width = .ok printed) ∧
    (p.lookup "-" = none → p.lookup "as" = none →
      (∀ d ∈ p.arena.toList, d.kind = .variable → isSolverName d.name = false) →
      (∀ b ∈ builtinSorts, p.mentions (.named b) = false) →
        ∀ printed, p.print width = .ok printed → ∃ q, read .script printed = .ok q ∧
          p.AlphaEquivalent q ∧ q.topLevel.Pairwise (fun i j => i.index < j.index) ∧
          q.assertions.map (·.name) = p.assertions.map (·.name) ∧
          q.sorts = p.sorts.map (fun d => { d with cardinality := none }) ∧
          q.print width = .ok printed) := by
  have hp := understood_of_read h
  refine ⟨fun hreal hstring hnames => hp.print hreal hstring hnames width, ?_⟩
  intro hminus has hvariables hbuiltin printed hprinted
  have hlegible := conforms_mono (understood_legible hp hminus has hbuiltin) (fun _ h => h)
    (conforms_within hp.conforms)
  have hfaithful := conforms_mono (understood_faithful hp hvariables) (fun _ h => h)
    hp.conforms
  have hheard : ∀ a ∈ p.assertions, ∀ n, a.name = some n → heard n = .comment n := by
    intro a ha n hn
    have hplain := ((conforms_iff.mp hp.conforms).2.2 a ha).1 n hn
    simp only [isPlainComment, Bool.and_eq_true, decide_eq_true_eq, Bool.not_eq_true'] at hplain
    exact heard_eq_comment hplain.1.2 hplain.2
  obtain ⟨q, hq, hqc, hcorr, horder, hnames, hsorts⟩ := read_of_legible hp.coherent hlegible hprinted
  rw [bind_readName_of_heard hheard] at hnames
  rw [reports_of_heard hheard] at hsorts
  exact ⟨q, hq, alphaEquivalent_of_byName hqc hfaithful hcorr, horder, hnames, hsorts,
    print_of_byName hqc hcorr hnames hprinted⟩

/-- A constant is declared inside a definition, and a function after it. -/
def interleaved : String :=
  "(declare-sort S 0)(define-fun f((x S))Bool(= x(as @uc_S_0 S)))(declare-fun g(S)S);a\n" ++
    "(assert(f(g @uc_S_0)))"

theorem read_print_of_read_interleaved : ∃ p printed q, read .script interleaved = .ok p ∧
    p.mentions .real = false ∧ p.mentions .string = false ∧
    (∀ a ∈ p.assertions, ∀ n ∈ a.name, '\r' ∉ n.toList) ∧
    p.lookup "-" = none ∧ p.lookup "as" = none ∧
    (∀ d ∈ p.arena.toList, d.kind = .variable → isSolverName d.name = false) ∧
    (∀ b ∈ builtinSorts, p.mentions (.named b) = false) ∧
    p.print 40 = .ok printed ∧ read .script printed = .ok q ∧ p.AlphaEquivalent q ∧
    q.topLevel.Pairwise (fun i j => i.index < j.index) ∧ q.print 40 = .ok printed := by
  have hchecked : (match read .script interleaved with
      | .error _ => false
      | .ok p => decide (p.mentions .real = false ∧ p.mentions .string = false ∧
        (∀ a ∈ p.assertions, ∀ n ∈ a.name, '\r' ∉ n.toList) ∧
        p.lookup "-" = none ∧ p.lookup "as" = none ∧
        (∀ d ∈ p.arena.toList, d.kind = .variable → isSolverName d.name = false) ∧
        (∀ b ∈ builtinSorts, p.mentions (.named b) = false))) = true := by
    decide +kernel
  cases hread : read .script interleaved with
  | error e =>
    rw [hread] at hchecked
    cases hchecked
  | ok p =>
    rw [hread] at hchecked
    obtain ⟨hreal, hstring, hnames, hminus, has, hvariables, hbuiltin⟩ :=
      decide_eq_true_eq.mp hchecked
    obtain ⟨hprint, hagain⟩ := read_print_of_read hread 40
    obtain ⟨printed, hprinted⟩ := hprint hreal hstring hnames
    obtain ⟨q, hq, halpha, horder, _, _, hsame⟩ := hagain hminus has hvariables hbuiltin printed hprinted
    exact ⟨p, printed, q, rfl, hreal, hstring, hnames, hminus, has, hvariables, hbuiltin, hprinted,
      hq, halpha, horder, hsame⟩

end Script

end TupleLogic
