import TupleLogic.Proofs.ReadingSteps

/-! Operands of operators and calls. An operator is read only with as many operands
as it takes. A call is read with the operands that are written, one at least: its name
must be declared, but what it is declared as, and with how many inputs, plays no part. -/

namespace TupleLogic

/-! ## Applications -/

/-- A head and the number of operands that it is applied to. -/
structure Application where
  head : String
  operands : Nat
  deriving DecidableEq, Repr

/-- Whether the head takes that many operands, where a name that is no operator takes
any number. -/
def Application.isAdmitted (a : Application) : Bool :=
  match Script.Reader.HeadKind.ofSpelling a.head with
  | .unary _ => a.operands = 1
  | .binary _ => a.operands = 2
  | .nary op => op.fewest ≤ a.operands
  | .name => 0 < a.operands

def Application.isCall (a : Application) : Bool := !isOperator a.head

def SExpr.application? : SExpr → Option Application
  | .list (.symbol head :: args) =>
    if applied head (args.map shape) then some ⟨head, args.length⟩ else none
  | _ => none

def Term.call? : Term → Option Application
  | .call f args => some ⟨f, args.length⟩
  | _ => none

/-- The applications in a term's form, operators included. -/
def Part.applications (p : Part) : List Application :=
  p.parts.filterMap fun q => q.form.application?

def Part.calls (p : Part) : List Application := p.applications.filter Application.isCall

def Term.calls (t : Term) : List Application := t.subterms.filterMap Term.call?

namespace Script

open Reader

/-- What a form applies and what the term that is read from it calls. -/
structure Counted (s : Script) (e : SExpr) (t : Term) : Prop where
  call : t.call? = e.application?.filter Application.isCall
  admitted : ∀ {a}, e.application? = some a → a.isAdmitted = true
  declared : ∀ {a}, e.application? = some a → a.isCall = true → (s.lookup a.head).isSome = true

section Steps

variable {r r' s : Script} {bound : List String} {e : SExpr} {t : Term} {head : String}
  {ts : List Term}

/-- Special forms apply nothing. -/
theorem Counted.special (he : e.application? = none) (ht : t.call? = none) : Counted s e t where
  call := by rw [he, ht, Option.filter_none]
  admitted := by simp [he]
  declared := by simp [he]

/-- Operators are applied to as many operands as they take, and all else by name. -/
theorem Counted.application {args : List SExpr} (happlied : applied head (args.map SExpr.shape) = true)
    (hlength : ts.length = args.length) (h : Applies r head ts t) :
    Counted r (.list (.symbol head :: args)) t := by
  have he : (SExpr.list (.symbol head :: args)).application? = some ⟨head, ts.length⟩ := by
    rw [hlength]
    exact if_pos happlied
  have hpos : 0 < ts.length := by
    rw [hlength]
    refine List.length_pos_iff.mpr fun hnil => ?_
    rw [hnil] at happlied
    cases happlied
  have hcounts : (Application.mk head ts.length).isAdmitted = true ∧
      t.call? = (some (Application.mk head ts.length)).filter Application.isCall ∧
      ((Application.mk head ts.length).isCall = true → (r.lookup head).isSome = true) := by
    rw [applies_iff] at h
    simp only [Application.isAdmitted, Application.isCall, Option.filter, isOperator_eq]
    cases hhead : HeadKind.ofSpelling head with
    | unary op =>
      rw [hhead] at h
      obtain ⟨a, rfl, rfl⟩ := h
      simp [Term.call?]
    | binary op =>
      rw [hhead] at h
      obtain ⟨_, a, b, rfl, rfl⟩ := h
      simp [Term.call?]
    | nary op =>
      rw [hhead] at h
      obtain ⟨hfew, rfl⟩ := h
      simp [Term.call?, hfew]
    | name =>
      rw [hhead] at h
      obtain ⟨hlookup, rfl⟩ := h
      simp [Term.call?, hlookup, hpos]
  refine ⟨by rw [he, hcounts.2.1], fun {a} ha => ?_, fun {a} ha => ?_⟩
  · obtain rfl := Option.some.inj (he.symm.trans ha)
    exact hcounts.1
  · obtain rfl := Option.some.inj (he.symm.trans ha)
    exact hcounts.2.2

theorem Reader.Step.counted (h : Step bound e t r r') : Counted r e t := by
  cases h with
  | application happlied hlength happlies => exact .application happlied hlength happlies
  | annotated _ _ hvalue =>
    refine .special (by simp [SExpr.application?, applied, SExpr.shape]) ?_
    rcases reads_solverValue.mp hvalue with ⟨id, _, rfl, _⟩ | ⟨_, rfl, _⟩
    · rfl
    · rfl
  | @quantified _ _ q _ _ _ _ _ =>
    refine .special ?_ rfl
    simp [SExpr.application?, applied, SExpr.shape, Quantifier.ofSpelling?_spelling]
  | _ => exact .special (by simp [SExpr.application?, applied, SExpr.shape]) rfl

theorem Counted.grows (h : Counted r e t) (hg : r.Grows s) : Counted s e t := by
  refine ⟨h.call, h.admitted, fun ha hcall => ?_⟩
  obtain ⟨id, hid⟩ := Option.isSome_iff_exists.mp (h.declared ha hcall)
  rw [hg.extension.lookup hid]
  rfl

theorem Reader.ReadAs.counted {p : Part} (h : ReadAs s p t) : Counted s p.form t := by
  obtain ⟨r, r', hstep, hg⟩ := h
  exact hstep.counted.grows (hstep.enriches.grows.trans hg)

end Steps

section Bodies

variable {s : Script} {p : Part} {t : Term}

theorem calls_of_parts {ps : List Part} {ts : List Term}
    (h : List.Forall₂ (fun q u => Counted s q.form u) ps ts) :
    (ps.filterMap fun q => q.form.application?).filter Application.isCall =
      ts.filterMap Term.call? := by
  rw [List.filter_filterMap]
  induction h with
  | nil => rfl
  | cons hcounted _ ih => rw [List.filterMap_cons, List.filterMap_cons, hcounted.call, ih]

theorem BodyOf.counted (h : s.BodyOf p t) :
    List.Forall₂ (fun q u => Counted s q.form u) p.parts t.subterms :=
  h.imp fun _ _ hread => hread.counted

theorem BodyOf.calls (h : s.BodyOf p t) : p.calls = t.calls := calls_of_parts h.counted

theorem BodyOf.applications (h : s.BodyOf p t) : ∀ a ∈ p.applications,
    a.isAdmitted = true ∧ (a.isCall = true → (s.lookup a.head).isSome = true) := by
  intro a ha
  obtain ⟨q, hq, happlication⟩ := List.mem_filterMap.mp ha
  have hparts : ∀ q ∈ p.parts, ∃ u, Counted s q.form u :=
    ((List.forall₂_and_left _ _).mp (h.counted.imp fun q u hcounted => ⟨⟨u, hcounted⟩, hcounted⟩)).1
  obtain ⟨u, hcounted⟩ := hparts q hq
  exact ⟨hcounted.admitted happlication, hcounted.declared happlication⟩

theorem map_calls {ps : List Part} {ts : List Term} (h : List.Forall₂ s.BodyOf ps ts) :
    ps.map Part.calls = ts.map Term.calls := by
  induction h with
  | nil => rfl
  | cons hbody _ ih => rw [List.map_cons, List.map_cons, hbody.calls, ih]

theorem forall_applications {ps : List Part} {ts : List Term} (h : List.Forall₂ s.BodyOf ps ts) :
    ∀ p ∈ ps, ∀ a ∈ p.applications,
      a.isAdmitted = true ∧ (a.isCall = true → (s.lookup a.head).isSome = true) :=
  ((List.forall₂_and_left _ _).mp (h.imp fun _ _ hbody => ⟨hbody.applications, hbody⟩)).1

end Bodies

/-- Next to what is declared, a call takes whatever operands can be read. -/
theorem reads_call {s s' : Script} {scope : Scope} {f : String} {args : List SExpr}
    {ts : List Term} (hf : isOperator f = false) (hlookup : (s.lookup f).isSome = true)
    (happlied : applied f (args.map SExpr.shape) = true)
    (h : Reads (readTerms scope args) s ts s') :
    Reads (readTerm scope (.list (.symbol f :: args))) s (.call f ts) s' := by
  rw [readTerm]
  refine (reads_applied happlied).mpr ⟨ts, h, applies_iff.mpr ?_⟩
  have hhead : HeadKind.ofSpelling f = .name := by simpa [isOperator_eq] using hf
  rw [hhead]
  exact ⟨hlookup, rfl⟩

/-- In every script that is read, the definitions and assertions make the calls that
their forms make, each with as many operands. Operators have the operands that they
take. What is called has a name that is declared, but nothing else is asked of it: next
to the script, every name in it can be called with any operands. -/
theorem read_calls {dialect : Dialect} {text : String} {s : Script}
    (h : read dialect text = .ok s) :
    ∃ items, SExpr.ofText text = .ok items ∧
      (SExpr.bodies (unwrap items)).map Part.calls = s.bodies.map Term.calls ∧
      (∀ p ∈ SExpr.bodies (unwrap items), ∀ a ∈ p.applications, a.isAdmitted = true ∧
        (a.isCall = true → ∃ id d, s.lookup a.head = some id ∧ s.arena[id.index]? = some d ∧
          d.name = a.head ∧ d.kind ≠ .variable)) ∧
      ∀ {f : String} {scope : Scope} {args : List SExpr} {ts : List Term} {s' : Script},
        isOperator f = false → (s.lookup f).isSome = true →
        applied f (args.map SExpr.shape) = true → Reads (readTerms scope args) s ts s' →
        Reads (readTerm scope (.list (.symbol f :: args))) s (.call f ts) s' := by
  obtain ⟨items, hitems, hbodies⟩ := bodies_of_read h
  have hcoherent := (understood_of_read h).coherent
  refine ⟨items, hitems, map_calls hbodies, fun p hp a ha => ?_, reads_call⟩
  obtain ⟨hadmitted, hdeclared⟩ := forall_applications hbodies p hp a ha
  refine ⟨hadmitted, fun hcall => ?_⟩
  obtain ⟨id, hid⟩ := Option.isSome_iff_exists.mp (hdeclared hcall)
  obtain ⟨d, hd, hname, hkind⟩ := hcoherent.lookup.mp hid
  exact ⟨id, d, hid, hd, hname, hkind⟩

/-- A call with too many operands and a call of a constant. -/
def misapplication : List SExpr := [
  .list [.symbol "declare-fun", .symbol "f", .list [.symbol "Int"], .symbol "Int"],
  .list [.symbol "declare-const", .symbol "c", .symbol "Int"],
  .list [.symbol "assert", .list [.symbol "=", .list [.symbol "f", .numeral 1, .numeral 2],
    .list [.symbol "c", .numeral 3]]]]

def misapplicationText : String :=
  "(declare-fun f (Int) Int) (declare-const c Int) (assert (= (f 1 2) (c 3)))"

def misapplied : Script where
  arena := #[.function "f" [.int] .int, .constant "c" .int]
  functions := [⟨0⟩]
  constants := [⟨1⟩]
  index := [("c", ⟨1⟩), ("f", ⟨0⟩)]
  assertions := [⟨none, .binary .eq (.call "f" [.int 1, .int 2]) (.call "c" [.int 3])⟩]

theorem read_misapplication : read .script misapplicationText = .ok misapplied := by
  have htokens : Token.ofText misapplicationText = .ok (SExpr.tokensAll misapplication) := by
    decide +kernel
  rw [read, htokens]
  rfl

theorem read_calls_misapplied :
    read .script misapplicationText = .ok misapplied ∧
      misapplied.bodies.map Term.calls = [[⟨"f", 2⟩, ⟨"c", 1⟩]] ∧
      ∃ items, SExpr.ofText misapplicationText = .ok items ∧
        (SExpr.bodies (unwrap items)).map Part.calls = [[⟨"f", 2⟩, ⟨"c", 1⟩]] := by
  obtain ⟨items, hitems, hcalls, _⟩ := read_calls read_misapplication
  exact ⟨read_misapplication, rfl, items, hitems, hcalls⟩

end Script

end TupleLogic
