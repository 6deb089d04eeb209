import TupleLogic.Proofs.Binders
import TupleLogic.Proofs.ReaderOutput

/-! What the reader binds. A variable enters the script where its binding is
read, and the term or definition that is read from there binds it, once and
for all: reading a term adds the variables that the term binds, and a command
leaves none over. -/

namespace TupleLogic.Script

namespace Reader

section Terms

variable {r r' : Script} {scope : Scope} {name : String} {t : Term}

theorem charges_solverValue {sort : TermSort} (h : Reads (solverValue name sort) r t r') :
    r.Charges r' t.binders := by
  rcases reads_solverValue.mp h with ⟨id, _, rfl, rfl⟩ | ⟨_, rfl, rfl⟩
  · exact .refl _
  · exact charges_add (d := .constant name sort) nofun (.refl r)

theorem binders_denote (h : r.denote scope name = some t) : t.binders = [] := by
  unfold denote at h
  split at h
  · cases h; rfl
  split at h
  · cases h; rfl
  split at h
  · cases h; rfl
  · obtain ⟨id, _, rfl⟩ := Option.map_eq_some_iff.mp h
    rfl

theorem charges_readSymbol (h : Reads (readSymbol scope name) r t r') :
    r.Charges r' t.binders := by
  rcases denote_or_new_of_readSymbol h with ⟨hdenote, rfl⟩ | ⟨_, _, hfree, sort, _, _, hnew⟩
  · rw [binders_denote hdenote]
    exact .refl _
  · exact charges_solverValue (reads_solverValue.mpr (.inr ⟨hfree, hnew⟩))

theorem charges_readInt {n : Int} (h : Reads (readInt n) r t r') : r.Charges r' t.binders := by
  obtain ⟨_, rfl, rfl⟩ := reads_readInt.mp h
  exact .refl _

theorem charges_readAnnotated {e : SExpr} (h : Reads (readAnnotated name e) r t r') :
    r.Charges r' t.binders := by
  obtain ⟨sort, _, hread⟩ := reads_annotated.mp h
  rcases hread with ⟨_, _, rfl, rfl⟩ | ⟨_, _, rfl, rfl⟩ | ⟨_, hvalue⟩
  · exact .refl _
  · exact .refl _
  · exact charges_solverValue hvalue

theorem charges_readBinding {e : SExpr} {p : String × DeclId} (h : Reads (readBinding e) r p r') :
    r.Charges r' [p.2] := by
  unfold readBinding at h
  split at h
  · obtain ⟨sort, _, hread⟩ := bind_eq_ok.mp h
    obtain ⟨rfl, rfl⟩ := Prod.mk.inj (pure_eq_ok.mp hread)
    exact charges_addVariable r _ sort
  · cases h

theorem charges_bindings {es : List SExpr} {bound : Scope}
    (h : Reads (es.mapM readBinding) r bound r') : r.Charges r' (bound.map Prod.snd) := by
  induction es generalizing r bound with
  | nil =>
    obtain ⟨rfl, rfl⟩ := reads_pure.mp h
    exact .refl _
  | cons e es ih =>
    rw [List.mapM_cons] at h
    obtain ⟨p, r₁, hp, hrest⟩ := reads_bind.mp h
    obtain ⟨ps, r₂, hps, hpure⟩ := reads_bind.mp hrest
    obtain ⟨rfl, rfl⟩ := reads_pure.mp hpure
    exact (charges_readBinding hp).trans (ih hps)

/-- A head binds what its operands bind. -/
theorem binders_applies {head : String} {ts : List Term} (h : Applies r head ts t) :
    t.binders = Term.bindersAll ts := by
  rcases applies_cases h with ⟨op, a, rfl, rfl⟩ | ⟨op, a, b, _, rfl, rfl⟩ | ⟨op, _, rfl⟩ |
    ⟨_, _, rfl⟩
  · simp [Term.binders, Term.bindersAll]
  · simp [Term.binders, Term.bindersAll]
  · rw [Term.binders]
  · rw [Term.binders]

theorem charges_cases : TermCases (fun _ _ r t r' => r.Charges r' t.binders)
    (fun _ _ r ts r' => r.Charges r' (Term.bindersAll ts)) where
  symbol := charges_readSymbol
  numeral := charges_readInt
  negative := charges_readInt
  annotated := charges_readAnnotated
  application _ _ hts happlies := by
    rw [binders_applies happlies]
    exact hts
  quantified hbound _ hb := (charges_bindings hbound).trans hb
  conditional hc ha hb := (hc.trans ha).trans hb
  selection {_ column _ _ _ b} _ hb := by
    have hselect : (Term.select column b).binders = b.binders := by
      simp [Term.select, Term.binders]
    rw [hselect]
    exact hb
  nil := .refl _
  cons _ ht hts := ht.trans hts

theorem charges_readTerm {e : SExpr} (h : Reads (readTerm scope e) r t r') :
    r.Charges r' t.binders :=
  charges_cases.term h

end Terms

/-! ## Commands -/

section Commands

variable {r r' : Script} {items : List SExpr}

theorem Executes.charges {name : Option String} {item : SExpr} (h : Executes name item r r') :
    r.Charges r' [] := by
  cases h with
  | comment | cardinality | logic | option => exact .refl r
  | sort _ hs =>
    obtain ⟨_, rfl⟩ := declareSort_eq_ok.mp hs
    exact .of_arena rfl rfl
  | function | constant => exact charges_add (fun heq => by cases heq) (.refl r)
  | definition _ hvars hbody =>
    exact charges_add (fun heq => by cases heq) ((charges_bindings hvars).trans (charges_readTerm hbody))
  | assertion hbody => exact charges_addAssertion (charges_readTerm hbody)

theorem charges_readCommands {dialect : Dialect} {name : Option String}
    {counts result : List (String × Nat)}
    (h : Reads (readCommands dialect name counts items) r result r') : r.Charges r' [] := by
  induction items generalizing name counts r with
  | nil => exact (reads_pure.mp h).2 ▸ .refl r
  | cons item items ih =>
    unfold readCommands at h
    split at h
    · exact ih h
    · exact ih h
    · obtain ⟨_, r₁, hcommand, hrest⟩ := reads_bind.mp h
      exact (executes_readCommand hcommand).charges.trans (ih hrest)
    · cases h

end Commands

end Reader

/-- Every variable that is read is bound once. -/
theorem binders_perm_of_read {dialect : Dialect} {text : String} {s : Script}
    (h : read dialect text = .ok s) : s.binders.Perm (s.entries .variable) := by
  obtain ⟨ts, _, hrest⟩ := bind_eq_ok.mp h
  obtain ⟨items, _, hscript⟩ := bind_eq_ok.mp hrest
  rw [ofSExprs_eq_attach] at hscript
  obtain ⟨⟨counts, r⟩, hr, hs⟩ := bind_eq_ok.mp hscript
  obtain rfl := pure_eq_ok.mp hs
  have hattach : r.Charges (Reader.attach counts.reverse r) [] := .of_arena rfl rfl
  exact Charges.binders_perm ((Reader.charges_readCommands hr).trans hattach)

end TupleLogic.Script
