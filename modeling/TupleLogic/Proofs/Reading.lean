import TupleLogic.Proofs.Correspondence

/-! Successful runs of the reader. `Reads m r a r'` says that `m`, started from
the script `r`, gives `a` and leaves `r'`. A list that stands for a term either
has one of the special shapes or applies its head to the terms of its other
items, and which of these it is depends on the shapes of the items alone. -/

namespace TupleLogic

/-! ## Shapes -/

/-- What the reader sees of an item before it reads it. -/
inductive Shape where
  | symbol
  | numeral
  | list
  | other
  deriving DecidableEq

def SExpr.shape : SExpr → Shape
  | .symbol _ => .symbol
  | .numeral _ => .numeral
  | .list _ => .list
  | .atom _ => .other

/-- The shape of a term's form. -/
def Term.shape : Term → Shape
  | .ref _ | .bool _ | .call _ [] => .symbol
  | .int n => if n < 0 then .list else .numeral
  | _ => .list

/-- Whether a head is applied to items of such shapes. -/
def applied (head : String) : List Shape → Bool
  | [] => false
  | [.numeral] => head ≠ "-"
  | [.symbol, _] => head ≠ "as"
  | [.list, _] => (Quantifier.ofSpelling? head).isNone
  | [_, _, _] => head ≠ "ite"
  | _ => true

namespace Script

theorem shape_form (s : Script) (t : Term) : (s.form t).shape = t.shape := by
  cases t with
  | int n =>
    by_cases hn : n < 0
    · simp [form, intForm, Term.shape, SExpr.shape, hn]
    · simp [form, intForm, Term.shape, SExpr.shape, hn]
  | binary op a b =>
    rw [form]
    split <;> rfl
  | call f args =>
    cases args with
    | nil => rfl
    | cons t ts => rfl
  | _ => rfl

theorem length_forms (s : Script) (ts : List Term) : (s.forms ts).length = ts.length := by
  induction ts with
  | nil => rfl
  | cons t ts ih => rw [forms, List.length_cons, ih, List.length_cons]

theorem map_shape_forms (s : Script) (ts : List Term) :
    (s.forms ts).map SExpr.shape = ts.map Term.shape := by
  induction ts with
  | nil => rfl
  | cons t ts ih => rw [forms, List.map_cons, List.map_cons, shape_form, ih]

namespace Reader

/-! ## Runs -/

def Reads {α : Type} (m : Reader α) (r : Script) (a : α) (r' : Script) : Prop := m r = .ok (a, r')

section Runs

variable {α β : Type} {r r' : Script}

theorem reads_pure {a b : α} : Reads (pure a) r b r' ↔ b = a ∧ r' = r := by
  show (Except.ok (a, r) : Except ReadError _) = .ok (b, r') ↔ _
  rw [Except.ok.injEq, Prod.mk.injEq]
  exact and_congr eq_comm eq_comm

theorem reads_bind {m : Reader α} {f : α → Reader β} {b : β} :
    Reads (m >>= f) r b r' ↔ ∃ a r₁, Reads m r a r₁ ∧ Reads (f a) r₁ b r' := by
  show (m r >>= fun p => f p.1 p.2) = .ok (b, r') ↔ _
  rw [bind_eq_ok]
  exact ⟨fun ⟨p, h, h'⟩ => ⟨p.1, p.2, h, h'⟩, fun ⟨a, r₁, h, h'⟩ => ⟨(a, r₁), h, h'⟩⟩

theorem reads_map {m : Reader α} {f : α → β} {b : β} :
    Reads (f <$> m) r b r' ↔ ∃ a, Reads m r a r' ∧ b = f a := by
  show (m r >>= fun p => pure (f p.1, p.2)) = .ok (b, r') ↔ _
  simp only [bind_eq_ok, pure_eq_ok, Prod.mk.injEq]
  exact ⟨fun ⟨p, h, hf, hr⟩ => ⟨p.1, hr ▸ h, hf.symm⟩, fun ⟨a, h, hf⟩ => ⟨(a, r'), h, hf.symm, rfl⟩⟩

theorem reads_get {s : Script} : Reads get r s r' ↔ s = r ∧ r' = r := reads_pure

theorem reads_lift {x : Except ReadError α} {a : α} :
    Reads (liftM x : Reader α) r a r' ↔ x = .ok a ∧ r' = r := by
  show (x >>= fun a => pure (a, r)) = .ok (a, r') ↔ _
  simp only [bind_eq_ok, pure_eq_ok, Prod.mk.injEq]
  exact ⟨fun ⟨b, h, hb, hr⟩ => ⟨hb ▸ h, hr.symm⟩, fun ⟨h, hr⟩ => ⟨a, h, rfl, hr.symm⟩⟩

/-- What runs on the script that the reader has so far. -/
theorem reads_get_bind {f : Script → Reader β} {b : β} :
    Reads (get >>= f) r b r' ↔ Reads (f r) r b r' := Iff.rfl

theorem reads_lift_bind {x : Except ReadError α} {f : α → Reader β} {b : β} :
    Reads ((liftM x : Reader α) >>= f) r b r' ↔ ∃ a, x = .ok a ∧ Reads (f a) r b r' := by
  simp only [reads_bind, reads_lift]
  exact ⟨fun ⟨a, _, ⟨ha, hr⟩, h⟩ => ⟨a, ha, hr ▸ h⟩, fun ⟨a, ha, h⟩ => ⟨a, r, ⟨ha, rfl⟩, h⟩⟩

theorem mapError_eq_ok {ε ε' : Type} {f : ε → ε'} {x : Except ε α} {a : α} :
    x.mapError f = .ok a ↔ x = .ok a := by
  cases x with
  | error e => exact ⟨nofun, nofun⟩
  | ok b => simp [Except.mapError]

theorem check_eq_ok {x : Except TermError α} {a : α} : check x = .ok a ↔ x = .ok a :=
  mapError_eq_ok

/-- A result of the term layer that is taken over. -/
theorem reads_check {x : Except TermError α} {a : α} :
    Reads (check x : Reader α) r a r' ↔ x = .ok a ∧ r' = r := by
  rw [reads_lift, check_eq_ok]

theorem reads_declare {command : Script → Except TermError (DeclId × Script)} {id : DeclId} :
    Reads (declare command) r id r' ↔ command r = .ok (id, r') := check_eq_ok

end Runs

/-! ## Applications -/

/-- What a head makes of operands, in a script that declares functions. -/
def Applies (r : Script) (head : String) (ts : List Term) (t : Term) : Prop :=
  match UnaryOp.ofSpelling? head with
  | some op => ∃ a, ts = [a] ∧ t = .unary op a
  | none =>
    match BinaryOp.ofSpelling? head with
    | some .select | none =>
      match NaryOp.ofSpelling? head with
      | some op => op.fewest ≤ ts.length ∧ t = .nary op ts
      | none => (r.lookup head).isSome ∧ t = .call head ts
    | some op => ∃ a b, ts = [a, b] ∧ t = .binary op a b

section Applications

variable {r r' : Script} {head : String} {t : Term} {ts : List Term}

theorem reads_ite {α : Type} {c : Prop} [Decidable c] {e : ReadError} {m : Reader α} {a : α} :
    Reads (if c then m else throw e) r a r' ↔ c ∧ Reads m r a r' := by
  split
  · rename_i hc
    exact ⟨fun h => ⟨hc, h⟩, fun h => h.2⟩
  · rename_i hc
    exact ⟨nofun, fun h => absurd h.1 hc⟩

theorem mkTuple_eq_ok : Term.mkTuple ts = .ok t ↔ ts ≠ [] ∧ t = .nary .tuple ts := by
  cases ts <;> simp [Term.mkTuple, eq_comm]

theorem distinct_eq_ok : Term.distinct ts = .ok t ↔ 2 ≤ ts.length ∧ t = .nary .distinct ts := by
  unfold Term.distinct
  by_cases h : ts.length < 2
  · simp [h]
  · simp [h, Nat.not_lt.mp h, eq_comm]

theorem insert_eq_ok {set : Term} : Term.insert ts set = .ok t ↔
    ts ≠ [] ∧ t = .nary .insert (ts ++ [set]) := by
  cases ts <;> simp [Term.insert, eq_comm]

/-- What an operator with any number of operands makes of them. -/
def naryTerm (op : NaryOp) (ts : List Term) : Reader Term :=
  match op with
  | .tuple => check (Term.mkTuple ts)
  | .distinct => check (Term.distinct ts)
  | .insert =>
    match ts.getLast? with
    | some set => check (Term.insert ts.dropLast set)
    | none => throw (.refused (.malformed .insertWithoutSet))
  | .and | .or => return .nary op ts

theorem reads_nary {op : NaryOp} (hne : ts ≠ []) : Reads (naryTerm op ts) r t r' ↔
    (op.fewest ≤ ts.length ∧ t = .nary op ts) ∧ r' = r := by
  have hpos : 1 ≤ ts.length := List.length_pos_iff.mpr hne
  cases op with
  | and => simp [naryTerm, reads_pure, NaryOp.fewest, hpos]
  | or => simp [naryTerm, reads_pure, NaryOp.fewest, hpos]
  | tuple => simp [naryTerm, reads_check, mkTuple_eq_ok, NaryOp.fewest, hpos, hne]
  | distinct => simp [naryTerm, reads_check, distinct_eq_ok, NaryOp.fewest]
  | insert =>
    have hdrop : ts.dropLast ≠ [] ↔ 2 ≤ ts.length := by
      rw [ne_eq, ← List.length_eq_zero_iff, List.length_dropLast]
      omega
    simp only [naryTerm, List.getLast?_eq_some_getLast hne, reads_check, insert_eq_ok, hdrop,
      List.dropLast_append_getLast, NaryOp.fewest]

theorem reads_one {terms : Reader (List Term)} {f : Term → Term} {e : List Term → ReadError} :
    Reads (do
      match ← terms with
      | [t] => return f t
      | ts => throw (e ts)) r t r' ↔ ∃ ts, Reads terms r ts r' ∧ ∃ a, ts = [a] ∧ t = f a := by
  rw [reads_bind]
  constructor
  · intro h
    obtain ⟨ts, r₁, hts, h⟩ := h
    split at h
    · obtain ⟨rfl, rfl⟩ := reads_pure.mp h
      exact ⟨_, hts, _, rfl, rfl⟩
    · cases h
  · intro h
    obtain ⟨ts, hts, a, rfl, rfl⟩ := h
    exact ⟨_, r', hts, reads_pure.mpr ⟨rfl, rfl⟩⟩

theorem reads_two {terms : Reader (List Term)} {f : Term → Term → Term}
    {e : List Term → ReadError} :
    Reads (do
      match ← terms with
      | [a, b] => return f a b
      | ts => throw (e ts)) r t r' ↔ ∃ ts, Reads terms r ts r' ∧ ∃ a b, ts = [a, b] ∧ t = f a b := by
  rw [reads_bind]
  constructor
  · intro h
    obtain ⟨ts, r₁, hts, h⟩ := h
    split at h
    · obtain ⟨rfl, rfl⟩ := reads_pure.mp h
      exact ⟨_, hts, _, _, rfl, rfl⟩
    · cases h
  · intro h
    obtain ⟨ts, hts, a, b, rfl, rfl⟩ := h
    exact ⟨_, r', hts, reads_pure.mpr ⟨rfl, rfl⟩⟩

/-- A check that throws says nothing new where what follows implies it. -/
theorem reads_checked {α : Type} {c : Prop} [Decidable c] {e : ReadError} {k : Unit → Reader α}
    {a : α} (h : Reads (k ()) r a r' → ¬ c) :
    Reads (if c then throw e >>= k else k ()) r a r' ↔ Reads (k ()) r a r' := by
  split
  · rename_i hc
    exact ⟨nofun, fun hk => absurd hc (h hk)⟩
  · exact Iff.rfl

/-- What a head that takes any number of operands, be it an operator or a function, makes of
what `terms` reads. -/
def variadicTerm (head : String) (terms : Reader (List Term)) : Reader Term := do
  match NaryOp.ofSpelling? head with
  | some op => naryTerm op (← terms)
  | none =>
    match (← get).lookup head with
    | some _ => return .call head (← terms)
    | none => throw (.unknownFunction head)

theorem reads_variadic {terms : Reader (List Term)}
    (hne : ∀ {ts r₁}, Reads terms r ts r₁ → ts ≠ []) :
    Reads (variadicTerm head terms) r t r' ↔
      ∃ ts, Reads terms r ts r' ∧ match NaryOp.ofSpelling? head with
        | some op => op.fewest ≤ ts.length ∧ t = .nary op ts
        | none => (r.lookup head).isSome ∧ t = .call head ts := by
  unfold variadicTerm
  cases NaryOp.ofSpelling? head with
  | some op =>
    simp only [reads_bind]
    constructor
    · intro h
      obtain ⟨ts, r₁, hts, h⟩ := h
      obtain ⟨ht, rfl⟩ := (reads_nary (hne hts)).mp h
      exact ⟨ts, hts, ht⟩
    · intro h
      obtain ⟨ts, hts, h⟩ := h
      exact ⟨ts, r', hts, (reads_nary (hne hts)).mpr ⟨h, rfl⟩⟩
  | none =>
    simp only [reads_bind]
    constructor
    · intro h
      obtain ⟨s, r₁, hs, h⟩ := h
      obtain ⟨rfl, rfl⟩ := reads_get.mp hs
      split at h
      · rename_i hlookup
        obtain ⟨ts, r₂, hts, h⟩ := reads_bind.mp h
        obtain ⟨rfl, rfl⟩ := reads_pure.mp h
        exact ⟨ts, hts, by rw [hlookup]; rfl, rfl⟩
      · cases h
    · intro h
      obtain ⟨ts, hts, hlookup, rfl⟩ := h
      refine ⟨r, r, reads_get.mpr ⟨rfl, rfl⟩, ?_⟩
      obtain ⟨id, hid⟩ := Option.isSome_iff_exists.mp hlookup
      rw [hid]
      exact reads_bind.mpr ⟨ts, r', hts, reads_pure.mpr ⟨rfl, rfl⟩⟩

theorem reads_application {count : Nat} {terms : Reader (List Term)}
    (hcount : ∀ {ts r₁}, Reads terms r ts r₁ → ts.length = count) (hne : count ≠ 0) :
    Reads (application head count terms) r t r' ↔
      ∃ ts, Reads terms r ts r' ∧ Applies r head ts t := by
  have hterms : ∀ {ts r₁}, Reads terms r ts r₁ → ts ≠ [] := by
    rintro ts r₁ hts rfl
    exact hne (hcount hts).symm
  have htwo : ∀ {f : Term → Term → Term},
      (∃ ts, Reads terms r ts r' ∧ ∃ a b, ts = [a, b] ∧ t = f a b) → ¬ count ≠ 2 := by
    rintro f ⟨ts, hts, a, b, rfl, _⟩
    exact not_not.mpr (hcount hts).symm
  unfold application Applies
  cases UnaryOp.ofSpelling? head with
  | some op =>
    refine (reads_checked fun h => ?_).trans reads_one
    obtain ⟨ts, hts, a, rfl, _⟩ := reads_one.mp h
    exact not_not.mpr (hcount hts).symm
  | none =>
    cases BinaryOp.ofSpelling? head with
    | none => exact reads_variadic hterms
    | some op =>
      cases op with
      | select => exact reads_variadic hterms
      | _ => exact (reads_checked fun h => htwo (reads_two.mp h)).trans reads_two

end Applications

/-! ## Forms -/

section Forms

variable {r r' : Script} {scope : Scope} {head : String} {args : List SExpr} {t : Term}

theorem readForm_applied (h : applied head (args.map SExpr.shape) = true) :
    readForm scope (.symbol head :: args) =
      application head args.length (readTerms scope args) := by
  match args with
  | [] => cases h
  | [.atom (.numeral n)] =>
    have hhead : head ≠ "-" := by simpa [applied, SExpr.shape] using h
    rw [readForm]
    exact if_neg hhead
  | [.atom (.symbol _)] | [.atom (.keyword _)] | [.atom (.string _)] | [.atom (.comment _)]
  | [.atom (.cardinality _ _)] | [.list _] =>
    rw [readForm]
    · rfl
    all_goals nofun
  | [.atom (.symbol name), sort] =>
    have hhead : head ≠ "as" := by simpa [applied, SExpr.shape] using h
    rw [readForm]
    exact if_neg hhead
  | [.list bindings, body] =>
    have hhead : Quantifier.ofSpelling? head = none := by simpa [applied, SExpr.shape] using h
    rw [readForm]
    simp only [hhead]
    rfl
  | [.atom (.numeral _), _] | [.atom (.keyword _), _] | [.atom (.string _), _]
  | [.atom (.comment _), _] | [.atom (.cardinality _ _), _] =>
    rw [readForm]
    · rfl
    all_goals nofun
  | [condition, yes, no] =>
    have hhead : head ≠ "ite" := by simpa [applied] using h
    rw [readForm]
    exact if_neg hhead
  | _ :: _ :: _ :: _ :: _ =>
    rw [readForm]
    · rfl
    all_goals nofun

theorem length_readTerms {es : List SExpr} {ts : List Term} (h : Reads (readTerms scope es) r ts r') :
    ts.length = es.length := by
  induction es generalizing ts r with
  | nil =>
    obtain ⟨rfl, _⟩ := reads_pure.mp h
    rfl
  | cons e es ih =>
    rw [readTerms] at h
    obtain ⟨t, r₁, _, h⟩ := reads_bind.mp h
    obtain ⟨ts, r₂, hts, h⟩ := reads_bind.mp h
    obtain ⟨rfl, rfl⟩ := reads_pure.mp h
    rw [List.length_cons, ih hts, List.length_cons]

theorem reads_terms_nil : Reads (readTerms scope []) r [] r := reads_pure.mpr ⟨rfl, rfl⟩

theorem reads_terms_cons {e : SExpr} {es : List SExpr} {ts : List Term} {r₁ : Script}
    (h : Reads (readTerm scope e) r t r₁) (hs : Reads (readTerms scope es) r₁ ts r') :
    Reads (readTerms scope (e :: es)) r (t :: ts) r' := by
  rw [readTerms]
  exact reads_bind.mpr ⟨t, r₁, h, reads_bind.mpr ⟨ts, r', hs, reads_pure.mpr ⟨rfl, rfl⟩⟩⟩

/-- A head that is applied to its operands. -/
theorem reads_applied (h : applied head (args.map SExpr.shape) = true) :
    Reads (readForm scope (.symbol head :: args)) r t r' ↔
      ∃ ts, Reads (readTerms scope args) r ts r' ∧ Applies r head ts t := by
  rw [readForm_applied h]
  refine reads_application length_readTerms fun hlength => ?_
  rw [List.length_eq_zero_iff.mp hlength] at h
  cases h

theorem readForm_negative (n : Nat) :
    readForm scope [.symbol "-", .numeral n] = readInt (-n) := by
  rw [readForm]
  rfl

theorem readForm_annotated (name : String) (sort : SExpr) :
    readForm scope [.symbol "as", .symbol name, sort] = readAnnotated name sort := by
  rw [readForm]
  rfl

theorem reads_readInt {n : Int} : Reads (readInt n) r t r' ↔
    Text.fitsSigned64 n = true ∧ t = .int n ∧ r' = r := by
  rw [readInt, reads_ite, reads_pure]

/-- Variables that are bound one after the other. -/
theorem reads_quantify {q : Quantifier} {bindings : List SExpr} {body : SExpr} :
    Reads (readForm scope [.symbol q.spelling, .list bindings, body]) r t r' ↔
      ∃ bound r₁ b, Reads (bindings.mapM readBinding) r bound r₁ ∧
        Reads (readTerm (bound.reverse ++ scope) body) r₁ b r' ∧ bound ≠ [] ∧
        t = .quantified q (bound.map Prod.snd) b := by
  have hquantify : ∀ {vars b}, Term.quantify q vars b = .ok t ↔
      vars ≠ [] ∧ t = .quantified q vars b := by
    intro vars b
    cases vars <;> simp [Term.quantify, eq_comm]
  rw [readForm]
  simp only [Quantifier.ofSpelling?_spelling, reads_bind, reads_check, hquantify]
  constructor
  · intro h
    obtain ⟨bound, r₁, hbound, b, r₂, hb, ⟨hne, ht⟩, rfl⟩ := h
    exact ⟨bound, r₁, b, hbound, hb, fun h => hne (by rw [h]; rfl), ht⟩
  · intro h
    obtain ⟨bound, r₁, b, hbound, hb, hne, ht⟩ := h
    exact ⟨bound, r₁, hbound, b, r', hb, ⟨by simpa using hne, ht⟩, rfl⟩

theorem reads_conditional {e yes no : SExpr} :
    Reads (readForm scope [.symbol "ite", e, yes, no]) r t r' ↔
      ∃ c a b r₁ r₂, Reads (readTerm scope e) r c r₁ ∧ Reads (readTerm scope yes) r₁ a r₂ ∧
        Reads (readTerm scope no) r₂ b r' ∧ t = .ite c a b := by
  rw [readForm]
  simp only [if_true, reads_bind, reads_pure]
  constructor
  · intro h
    obtain ⟨c, r₁, hc, a, r₂, ha, b, r₃, hb, ht, rfl⟩ := h
    exact ⟨c, a, b, r₁, r₂, hc, ha, hb, ht⟩
  · intro h
    obtain ⟨c, a, b, r₁, r₂, hc, ha, hb, ht⟩ := h
    exact ⟨c, r₁, hc, a, r₂, ha, b, r', hb, ht, rfl⟩

theorem reads_selection {column : Nat} {tuple : SExpr} :
    Reads (readForm scope [.list [.symbol "_", .symbol BinaryOp.select.spelling, .numeral column],
      tuple]) r t r' ↔ Text.fitsUnsigned32 column = true ∧
        ∃ b, Reads (readTerm scope tuple) r b r' ∧ t = .select column b := by
  rw [readForm]
  · simp only [selectorColumn?, and_self, if_true, reads_ite, reads_bind, reads_pure]
    refine and_congr_right fun _ => ⟨fun h => ?_, fun h => ?_⟩
    · obtain ⟨b, r₁, hb, ht, rfl⟩ := h
      exact ⟨b, hb, ht⟩
    · obtain ⟨b, hb, ht⟩ := h
      exact ⟨b, r', hb, ht, rfl⟩
  · nofun

theorem selectorColumn?_eq_some {e : SExpr} {column : Nat}
    (h : selectorColumn? e = some column) :
    e = .list [.symbol "_", .symbol BinaryOp.select.spelling, .numeral column] := by
  unfold selectorColumn? at h
  split at h
  · split at h
    · rename_i heads
      obtain ⟨rfl, rfl⟩ := heads
      rw [Option.some.inj h]
    · cases h
  · cases h

/-- The lists that are read as special forms, with the head's name. -/
theorem special_of_not_applied (h : Reads (readForm scope (.symbol head :: args)) r t r')
    (happlied : ¬ applied head (args.map SExpr.shape) = true) :
    (head = "-" ∧ ∃ n, args = [.numeral n]) ∨
    (head = "as" ∧ ∃ name sort, args = [.symbol name, sort]) ∨
    (∃ q, head = Quantifier.spelling q ∧ ∃ bindings body, args = [.list bindings, body]) ∨
    (head = "ite" ∧ ∃ e yes no, args = [e, yes, no]) := by
  match args with
  | [] =>
    rw [readForm] at h
    · cases h
    all_goals nofun
  | [.atom (.numeral n)] =>
    have hhead : head = "-" := by simpa [applied, SExpr.shape] using happlied
    exact .inl ⟨hhead, n, rfl⟩
  | [.atom (.symbol name), sort] =>
    have hhead : head = "as" := by simpa [applied, SExpr.shape] using happlied
    exact .inr (.inl ⟨hhead, name, sort, rfl⟩)
  | [.list bindings, body] =>
    obtain ⟨q, hq⟩ : ∃ q, Quantifier.ofSpelling? head = some q := by
      rw [← Option.ne_none_iff_exists']
      simpa [applied, SExpr.shape] using happlied
    have hspelling : head = q.spelling := by
      have hfound := List.find?_some hq
      exact (decide_eq_true_eq.mp hfound).symm
    exact .inr (.inr (.inl ⟨q, hspelling, bindings, body, rfl⟩))
  | [e, yes, no] =>
    have hhead : head = "ite" := by simpa [applied] using happlied
    exact .inr (.inr (.inr ⟨hhead, e, yes, no, rfl⟩))
  | [.atom (.symbol _)] | [.atom (.keyword _)] | [.atom (.string _)] | [.atom (.comment _)]
  | [.atom (.cardinality _ _)] | [.list _] | [.atom (.numeral _), _] | [.atom (.keyword _), _]
  | [.atom (.string _), _] | [.atom (.comment _), _] | [.atom (.cardinality _ _), _] =>
    exact absurd rfl happlied
  | _ :: _ :: _ :: _ :: _ => exact absurd (by simp [applied]) happlied

/-- A list whose first item is no symbol selects a column. -/
theorem selection_of_reads {es : List SExpr} (h : Reads (readForm scope es) r t r')
    (hhead : ∀ head args, es ≠ .symbol head :: args) : ∃ column tuple, es =
      [.list [.symbol "_", .symbol BinaryOp.select.spelling, .numeral column], tuple] := by
  unfold readForm at h
  split at h
  · rename_i head args
    exact absurd rfl (hhead head args)
  · rename_i selector tuple _
    split at h
    · rename_i column hcolumn
      exact ⟨column, tuple, by rw [selectorColumn?_eq_some hcolumn]⟩
    · cases h
  · cases h

end Forms

/-! ## Induction on what is read -/

/-- The cases that show something of every term that is read, and of the lists of operands:
one for each form that a term has. -/
structure TermCases (P : Scope → SExpr → Script → Term → Script → Prop)
    (Q : Scope → List SExpr → Script → List Term → Script → Prop) : Prop where
  symbol : ∀ {scope : Scope} {name : String} {r r' : Script} {t : Term},
    Reads (readSymbol scope name) r t r' → P scope (.symbol name) r t r'
  numeral : ∀ {scope : Scope} {n : Nat} {r r' : Script} {t : Term},
    Reads (readInt n) r t r' → P scope (.numeral n) r t r'
  negative : ∀ {scope : Scope} {n : Nat} {r r' : Script} {t : Term},
    Reads (readInt (-n)) r t r' → P scope (.list [.symbol "-", .numeral n]) r t r'
  annotated : ∀ {scope : Scope} {name : String} {sort : SExpr} {r r' : Script} {t : Term},
    Reads (readAnnotated name sort) r t r' →
      P scope (.list [.symbol "as", .symbol name, sort]) r t r'
  application : ∀ {scope : Scope} {head : String} {args : List SExpr} {ts : List Term}
    {r r' : Script} {t : Term}, applied head (args.map SExpr.shape) = true →
      ts.length = args.length → Q scope args r ts r' → Applies r head ts t →
      P scope (.list (.symbol head :: args)) r t r'
  quantified : ∀ {scope bound : Scope} {q : Quantifier} {bindings : List SExpr} {body : SExpr}
    {r r₁ r' : Script} {b : Term}, Reads (bindings.mapM readBinding) r bound r₁ → bound ≠ [] →
      P (bound.reverse ++ scope) body r₁ b r' →
      P scope (.list [.symbol q.spelling, .list bindings, body]) r
        (.quantified q (bound.map Prod.snd) b) r'
  conditional : ∀ {scope : Scope} {e yes no : SExpr} {r r₁ r₂ r' : Script} {c a b : Term},
    P scope e r c r₁ → P scope yes r₁ a r₂ → P scope no r₂ b r' →
      P scope (.list [.symbol "ite", e, yes, no]) r (.ite c a b) r'
  selection : ∀ {scope : Scope} {column : Nat} {tuple : SExpr} {r r' : Script} {b : Term},
    Text.fitsUnsigned32 column = true → P scope tuple r b r' →
      P scope (.list [.list [.symbol "_", .symbol BinaryOp.select.spelling, .numeral column],
        tuple]) r (.select column b) r'
  nil : ∀ {scope : Scope} {r : Script}, Q scope [] r [] r
  cons : ∀ {scope : Scope} {e : SExpr} {es : List SExpr} {r r₁ r' : Script} {t : Term}
    {ts : List Term}, Reads (readTerm scope e) r t r₁ → P scope e r t r₁ → Q scope es r₁ ts r' →
      Q scope (e :: es) r (t :: ts) r'

section Induction

variable {P : Scope → SExpr → Script → Term → Script → Prop}
  {Q : Scope → List SExpr → Script → List Term → Script → Prop}

mutual
theorem TermCases.term (h : TermCases P Q) : ∀ {e : SExpr} {scope : Scope} {r r' : Script}
    {t : Term}, Reads (readTerm scope e) r t r' → P scope e r t r'
  | e, scope, r, r', t, ht => by
    cases e with
    | list items =>
      rw [readTerm] at ht
      exact h.form ht
    | atom a =>
      cases a with
      | symbol name =>
        rw [readTerm] at ht
        exact h.symbol ht
      | numeral n =>
        rw [readTerm] at ht
        exact h.numeral ht
      | _ =>
        rw [readTerm] at ht
        · cases ht
        all_goals nofun
termination_by e => sizeOf e
decreasing_by
  subst_vars
  simp only [SExpr.list.sizeOf_spec]
  omega

theorem TermCases.form (h : TermCases P Q) : ∀ {es : List SExpr} {scope : Scope} {r r' : Script}
    {t : Term}, Reads (readForm scope es) r t r' → P scope (.list es) r t r'
  | es, scope, r, r', t, ht => by
    by_cases hsymbol : ∃ head args, es = .symbol head :: args
    · obtain ⟨head, args, rfl⟩ := hsymbol
      by_cases happlied : applied head (args.map SExpr.shape) = true
      · obtain ⟨ts, hts, happlies⟩ := (reads_applied happlied).mp ht
        exact h.application happlied (length_readTerms hts) (h.terms hts) happlies
      · rcases special_of_not_applied ht happlied with ⟨rfl, n, rfl⟩ | ⟨rfl, name, sort, rfl⟩ |
          ⟨q, rfl, bindings, body, rfl⟩ | ⟨rfl, e, yes, no, rfl⟩
        · rw [readForm_negative] at ht
          exact h.negative ht
        · rw [readForm_annotated] at ht
          exact h.annotated ht
        · obtain ⟨bound, r₁, b, hbound, hb, hne, rfl⟩ := reads_quantify.mp ht
          exact h.quantified hbound hne (h.term hb)
        · obtain ⟨c, a, b, r₁, r₂, hc, ha, hb, rfl⟩ := reads_conditional.mp ht
          exact h.conditional (h.term hc) (h.term ha) (h.term hb)
    · obtain ⟨column, tuple, rfl⟩ := selection_of_reads ht fun head args heq => hsymbol ⟨head, args, heq⟩
      obtain ⟨hfits, b, hb, rfl⟩ := reads_selection.mp ht
      exact h.selection hfits (h.term hb)
termination_by es => sizeOf es
decreasing_by
  all_goals
    subst_vars
    simp only [SExpr.list.sizeOf_spec, List.cons.sizeOf_spec, List.nil.sizeOf_spec]
    omega

theorem TermCases.terms (h : TermCases P Q) : ∀ {es : List SExpr} {scope : Scope}
    {r r' : Script} {ts : List Term}, Reads (readTerms scope es) r ts r' → Q scope es r ts r'
  | es, scope, r, r', ts, hts => by
    cases es with
    | nil =>
      rw [readTerms] at hts
      obtain ⟨rfl, rfl⟩ := reads_pure.mp hts
      exact h.nil
    | cons e es =>
      rw [readTerms] at hts
      obtain ⟨t, r₁, ht, hrest⟩ := reads_bind.mp hts
      obtain ⟨ts, r₂, hts, hpure⟩ := reads_bind.mp hrest
      obtain ⟨rfl, rfl⟩ := reads_pure.mp hpure
      exact h.cons ht (h.term ht) (h.terms hts)
termination_by es => sizeOf es
decreasing_by
  all_goals
    subst_vars
    simp only [List.cons.sizeOf_spec]
    omega
end

end Induction

end Reader

end Script

end TupleLogic
