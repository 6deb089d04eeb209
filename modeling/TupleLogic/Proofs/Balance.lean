import TupleLogic.Proofs.SExprTokens

/-! Parentheses. Lists that are open are kept on a stack, which has the effect of a
grammar: an s-expression is an atom or a list of s-expressions in parentheses, and as
many are taken as there are. Tokens are read so exactly if every list that is closed
was open and every list that was opened is closed. Then no token is lost. Otherwise
reading stops at the first closing parenthesis without a list to close, and without
such a one at the end. -/

namespace TupleLogic.SExpr

/-! ## The grammar -/

mutual
/-- An s-expression stands at the front of the tokens, and leaves the others. -/
inductive Parses : List Token → SExpr → List Token → Prop
  | atom {a : Atom} {ts : List Token} : Parses (.atom a :: ts) (.atom a) ts
  | list {items : List SExpr} {ts rest far : List Token}
      (hitems : ParsesMany ts items (.closing :: rest) far) :
      Parses (.opening :: ts) (.list items) rest

/-- S-expressions stand at the front, as many as there are, and leave the others. That
there is not one more is seen where `far` is left. -/
inductive ParsesMany : List Token → List SExpr → List Token → List Token → Prop
  | stop {ts far : List Token} (hfails : Fails ts far) : ParsesMany ts [] ts far
  | next {e : SExpr} {items : List SExpr} {ts us rest far : List Token} (hitem : Parses ts e us)
      (hitems : ParsesMany us items rest far) : ParsesMany ts (e :: items) rest far

/-- No s-expression stands at the front, which is seen where `far` is left. -/
inductive Fails : List Token → List Token → Prop
  | empty : Fails [] []
  | closing {ts : List Token} : Fails (.closing :: ts) (.closing :: ts)
  | unclosed {items : List SExpr} {ts rest far : List Token}
      (hitems : ParsesMany ts items rest far) (hrest : ∀ us, rest ≠ .closing :: us) :
      Fails (.opening :: ts) far
end

/-- Greedy repetition comes to an end on all tokens. -/
theorem exists_parsesMany (ts : List Token) :
    ∃ es rest far, ParsesMany ts es rest far ∧ rest.length ≤ ts.length := by
  induction hn : ts.length using Nat.strongRecOn generalizing ts with
  | ind n ih =>
    subst hn
    rcases ts with _ | ⟨_ | _ | a, ts⟩
    · exact ⟨[], _, _, .stop .empty, Nat.le_refl _⟩
    · obtain ⟨items, rest, far, hitems, hle⟩ := ih ts.length (Nat.lt_succ_self _) ts rfl
      by_cases hrest : ∃ us, rest = .closing :: us
      · obtain ⟨us, rfl⟩ := hrest
        have hlt : us.length < ts.length := hle
        obtain ⟨es, rest, far, hes, hle⟩ := ih us.length (Nat.lt_succ_of_lt hlt) us rfl
        exact ⟨_, _, _, .next (.list hitems) hes, by rw [List.length_cons]; omega⟩
      · exact ⟨[], _, _, .stop (.unclosed hitems fun us h => hrest ⟨us, h⟩), Nat.le_refl _⟩
    · exact ⟨[], _, _, .stop .closing, Nat.le_refl _⟩
    · obtain ⟨es, rest, far, hes, hle⟩ := ih ts.length (Nat.lt_succ_self _) ts rfl
      exact ⟨_, _, _, .next .atom hes, Nat.le_succ_of_le hle⟩

theorem ParsesMany.fails {ts rest far : List Token} {es : List SExpr} :
    ParsesMany ts es rest far → Fails rest far
  | .stop hfails => hfails
  | .next _ hitems => hitems.fails

mutual
/-- The stack below an s-expression is the same before and after it. -/
theorem Parses.build {ts us : List Token} {e : SExpr} (opened : List (List SExpr))
    (items : List SExpr) : Parses ts e us → build opened items ts = build opened (e :: items) us
  | .atom => by rw [SExpr.build]
  | .list hitems => by
    rw [SExpr.build, hitems.build, SExpr.build, List.append_nil, List.reverse_reverse]

theorem ParsesMany.build {ts rest far : List Token} {es : List SExpr}
    (opened : List (List SExpr)) (items : List SExpr) : ParsesMany ts es rest far →
      build opened items ts = build opened (es.reverse ++ items) rest
  | .stop _ => rfl
  | .next hitem hitems => by
    rw [hitem.build, hitems.build, List.reverse_cons, List.append_assoc, List.singleton_append]
end

/-- A list that is not closed is noticed where the grammar gives up on it. -/
theorem ParsesMany.build_unclosed {ts rest far : List Token} {es : List SExpr}
    (outer : List SExpr) (opened : List (List SExpr)) (items : List SExpr)
    (hrest : ∀ us, rest ≠ .closing :: us) :
    ParsesMany ts es rest far → SExpr.build (outer :: opened) items ts = .error (.ofRest far)
  | .stop .empty => by rw [SExpr.build, Stop.ofRest]
  | .stop .closing => absurd rfl (hrest _)
  | .stop (.unclosed hitems hclosing) => by
    rw [SExpr.build, hitems.build_unclosed _ _ _ hclosing]
  | .next hitem hitems => by rw [hitem.build, hitems.build_unclosed _ _ _ hrest]

theorem ParsesMany.ofTokens {ts rest far : List Token} {es : List SExpr}
    (h : ParsesMany ts es rest far) :
    ofTokens ts = if rest = [] then .ok es else .error (.ofRest far) := by
  rw [SExpr.ofTokens, h.build, List.append_nil]
  cases h.fails with
  | empty => rw [SExpr.build, List.reverse_reverse, if_pos rfl]
  | closing => rw [SExpr.build, if_neg (List.cons_ne_nil _ _), Stop.ofRest]
  | unclosed hitems hrest =>
    rw [SExpr.build, hitems.build_unclosed _ _ _ hrest, if_neg (List.cons_ne_nil _ _)]

/-- Tokens are read as the grammar says, if it leaves none, and are refused for the token
where it failed last. -/
theorem ofTokens_grammar (ts : List Token) :
    (∀ es, ofTokens ts = .ok es ↔ ∃ far, ParsesMany ts es [] far) ∧
    ∀ stop, ofTokens ts = .error stop ↔
      ∃ es rest far, ParsesMany ts es rest far ∧ rest ≠ [] ∧ stop = .ofRest far := by
  obtain ⟨es, rest, far, h, _⟩ := exists_parsesMany ts
  refine ⟨fun es' => ⟨fun hok => ?_, ?_⟩, fun stop => ⟨fun herror => ?_, ?_⟩⟩
  · rw [h.ofTokens] at hok
    split at hok
    · rename_i hrest
      subst hrest
      exact ⟨far, Except.ok.inj hok ▸ h⟩
    · cases hok
  · rintro ⟨far, h⟩
    exact h.ofTokens.trans (if_pos rfl)
  · rw [h.ofTokens] at herror
    split at herror
    · cases herror
    · rename_i hrest
      exact ⟨es, rest, far, h, hrest, (Except.error.inj herror).symm⟩
  · rintro ⟨es, rest, far, h, hrest, rfl⟩
    exact h.ofTokens.trans (if_neg hrest)

/-! ## Balanced tokens -/

/-- More lists are closed than opened. -/
def Overclosed (ts : List Token) : Prop := ts.count .opening < ts.count .closing

/-- Every list that is closed was open, and every list that was opened is closed. -/
structure Balanced (ts : List Token) : Prop where
  open_before_closed : ∀ ⦃us⦄, us <+: ts → ¬ Overclosed us
  all_closed : ts.count .closing = ts.count .opening

/-- `left` starts with the first closing parenthesis that has no list to close, or is
empty for want of one. -/
structure FirstUnmatched (behind left : List Token) : Prop where
  open_before_closed : ∀ ⦃us⦄, us <+: behind → ¬ Overclosed us
  unmatched : left ≠ [] → ∃ ts, left = .closing :: ts ∧ Overclosed (behind ++ [.closing])

/-! ## Reading token by token -/

/-- A moment of reading: the lists that are still open and the items of the innermost,
as `build` has them, and the tokens that are left. -/
structure Reading where
  opened : List (List SExpr)
  items : List SExpr
  left : List Token

namespace Reading

def start (ts : List Token) : Reading := ⟨[], [], ts⟩

def outcome (r : Reading) : Except (Stop Token) (List SExpr) := build r.opened r.items r.left

/-- Takes one token, unless none is left or it closes a list and none is open. -/
def next : Reading → Option Reading
  | ⟨opened, items, .opening :: ts⟩ => some ⟨items :: opened, [], ts⟩
  | ⟨outer :: opened, items, .closing :: ts⟩ => some ⟨opened, .list items.reverse :: outer, ts⟩
  | ⟨opened, items, .atom a :: ts⟩ => some ⟨opened, .atom a :: items, ts⟩
  | ⟨[], _, .closing :: _⟩ | ⟨_, _, []⟩ => none

/-- One moment comes after another. -/
inductive Reaches : Reading → Reading → Prop
  | refl {r : Reading} : Reaches r r
  | step {r r' s : Reading} : r.next = some r' → Reaches r' s → Reaches r s

/-- The tokens of lists that are still open. -/
def spent : List (List SExpr) → List SExpr → List Token
  | [], items => tokensAll items.reverse
  | outer :: opened, items => spent opened outer ++ .opening :: tokensAll items.reverse

/-- The tokens that are not left. -/
def behind (r : Reading) : List Token := spent r.opened r.items

theorem spent_cons (opened : List (List SExpr)) (items : List SExpr) (e : SExpr) :
    spent opened (e :: items) = spent opened items ++ e.tokens := by
  cases opened <;> simp [spent, tokensAll_append, tokensAll]

/-- What one token does: it goes from the front of what is left to the end of what is
behind, and there is one more list open or one less if it is a parenthesis. -/
theorem next_cases {r r' : Reading} (h : r.next = some r') : ∃ t, r.left = t :: r'.left ∧
    r'.behind = r.behind ++ [t] ∧ r'.outcome = r.outcome ∧
    r'.opened.length + [t].count .closing = r.opened.length + [t].count .opening := by
  obtain ⟨opened, items, left⟩ := r
  unfold next at h
  split at h
  · rename_i heq
    cases h
    cases heq
    exact ⟨.opening, rfl, rfl, by rw [outcome, outcome, build], rfl⟩
  · rename_i heq
    cases h
    cases heq
    refine ⟨.closing, rfl, ?_, by rw [outcome, outcome, build], rfl⟩
    simp [behind, spent_cons, spent, tokens]
  · rename_i heq
    cases h
    cases heq
    exact ⟨_, rfl, spent_cons _ _ _, by rw [outcome, outcome, build], rfl⟩
  · cases h
  · cases h

/-- Where reading stops, and with what outcome. -/
theorem stopped_cases {r : Reading} (h : r.next = none) :
    (r.left = [] ∧ r.opened = [] ∧ r.outcome = .ok r.items.reverse) ∨
    (r.left = [] ∧ 0 < r.opened.length ∧ r.outcome = .error .endOfInput) ∨
    ∃ ts, r.left = .closing :: ts ∧ r.opened = [] ∧ r.outcome = .error (.found .closing) := by
  obtain ⟨opened, items, left⟩ := r
  cases left with
  | nil =>
    cases opened with
    | nil => exact .inl ⟨rfl, rfl, by rw [outcome, build]⟩
    | cons outer opened => exact .inr (.inl ⟨rfl, Nat.succ_pos _, by rw [outcome, build]⟩)
  | cons t ts =>
    cases t with
    | opening | atom _ => cases h
    | closing =>
      cases opened with
      | nil => exact .inr (.inr ⟨ts, rfl, rfl, by rw [outcome, build]⟩)
      | cons outer opened => cases h

/-- There is an end to reading, since every step takes a token. -/
theorem exists_stopped (r : Reading) : ∃ s, r.Reaches s ∧ s.next = none := by
  induction hn : r.left.length generalizing r with
  | zero =>
    refine ⟨r, .refl, ?_⟩
    cases hnext : r.next with
    | none => rfl
    | some r' =>
      obtain ⟨t, hleft, _⟩ := next_cases hnext
      rw [hleft] at hn
      cases hn
  | succ n ih =>
    cases hnext : r.next with
    | none => exact ⟨r, .refl, hnext⟩
    | some r' =>
      obtain ⟨t, hleft, _⟩ := next_cases hnext
      rw [hleft, List.length_cons, Nat.add_right_cancel_iff] at hn
      obtain ⟨s, hs, hstopped⟩ := ih r' hn
      exact ⟨s, .step hnext hs, hstopped⟩

/-- What holds at every moment of reading `ts`. -/
structure Of (ts : List Token) (r : Reading) : Prop where
  tokens : r.behind ++ r.left = ts
  outcome : r.outcome = ofTokens ts
  open_before_closed : ∀ ⦃us⦄, us <+: r.behind → ¬ Overclosed us
  depth : r.behind.count .closing + r.opened.length = r.behind.count .opening

theorem Of.start (ts : List Token) : Of ts (start ts) where
  tokens := rfl
  outcome := rfl
  open_before_closed := by
    intro us hus
    rw [List.prefix_nil.mp hus]
    exact Nat.lt_irrefl 0
  depth := rfl

theorem Of.next {ts : List Token} {r r' : Reading} (h : Of ts r) (hnext : r.next = some r') :
    Of ts r' := by
  obtain ⟨t, hleft, hbehind, houtcome, hopened⟩ := next_cases hnext
  have hdepth : r'.behind.count .closing + r'.opened.length = r'.behind.count .opening := by
    have := h.depth
    rw [hbehind, List.count_append, List.count_append]
    omega
  refine ⟨?_, houtcome.trans h.outcome, ?_, hdepth⟩
  · rw [hbehind, List.append_assoc, List.singleton_append, ← hleft, h.tokens]
  · intro us hus
    rw [hbehind, List.prefix_concat_iff, ← hbehind] at hus
    rcases hus with rfl | hus
    · unfold Overclosed
      omega
    · exact h.open_before_closed hus

theorem Of.reaches {ts : List Token} {r s : Reading} (hr : Of ts r) (h : r.Reaches s) :
    Of ts s := by
  induction h with
  | refl => exact hr
  | step hnext _ ih => exact ih (hr.next hnext)

/-- The last moment of reading. -/
theorem exists_last (ts : List Token) :
    ∃ r, (start ts).Reaches r ∧ r.next = none ∧ Of ts r := by
  obtain ⟨r, hreaches, hnext⟩ := exists_stopped (start ts)
  exact ⟨r, hreaches, hnext, (Of.start ts).reaches hreaches⟩

section Last

variable {ts : List Token} {r : Reading} (h : Of ts r)

include h

theorem Of.behind_eq (hleft : r.left = []) : r.behind = ts := by
  have htokens := h.tokens
  rwa [hleft, List.append_nil] at htokens

theorem Of.overclosed (hopened : r.opened = []) : Overclosed (r.behind ++ [.closing]) := by
  have hdepth := h.depth
  rw [hopened, List.length_nil, Nat.add_zero] at hdepth
  rw [Overclosed, List.count_append, List.count_append, hdepth]
  exact Nat.lt_succ_self _

variable (hnext : r.next = none)

include hnext

theorem Of.accepted {es : List SExpr} (hok : r.outcome = .ok es) :
    Balanced ts ∧ tokensAll es = ts := by
  rcases stopped_cases hnext with ⟨hleft, hopened, houtcome⟩ | ⟨_, _, houtcome⟩ |
    ⟨_, _, _, houtcome⟩ <;> cases houtcome.symm.trans hok
  have hbehind := h.behind_eq hleft
  have hdepth := h.depth
  rw [hopened, List.length_nil, Nat.add_zero, hbehind] at hdepth
  refine ⟨⟨hbehind ▸ h.open_before_closed, hdepth⟩, ?_⟩
  rwa [behind, hopened] at hbehind

/-- Tokens are refused at the end for a list that is still open, and before the end for
a closing parenthesis. -/
theorem Of.refused {stop : Stop Token} (herror : r.outcome = .error stop) :
    ¬ Balanced ts ∧ stop = .ofRest r.left ∧ FirstUnmatched r.behind r.left := by
  rcases stopped_cases hnext with ⟨_, _, houtcome⟩ | ⟨hleft, hopened, houtcome⟩ |
    ⟨us, hleft, hopened, houtcome⟩ <;> cases houtcome.symm.trans herror
  · refine ⟨fun hbalanced => ?_, by rw [hleft]; rfl, h.open_before_closed,
      fun hne => absurd hleft hne⟩
    have hdepth := h.depth
    rw [h.behind_eq hleft, hbalanced.all_closed] at hdepth
    omega
  · have hover := h.overclosed hopened
    refine ⟨fun hbalanced => ?_, by rw [hleft]; rfl, h.open_before_closed,
      fun _ => ⟨us, hleft, hover⟩⟩
    refine hbalanced.open_before_closed ⟨us, ?_⟩ hover
    rw [List.append_assoc, List.singleton_append, ← hleft, h.tokens]

end Last

end Reading

/-- Tokens are read as s-expressions if and only if they are balanced. The s-expressions
have these tokens and no others. Where tokens are refused, reading stops at the first
closing parenthesis that has no list to close, and without one at the end. -/
theorem ofTokens_accepts_balanced (ts : List Token) :
    ((∃ es, ofTokens ts = .ok es) ↔ Balanced ts) ∧
    (∀ es, ofTokens ts = .ok es → tokensAll es = ts) ∧
    ∀ stop, ofTokens ts = .error stop → ∃ r : Reading, (Reading.start ts).Reaches r ∧
      r.next = none ∧ r.behind ++ r.left = ts ∧ stop = .ofRest r.left ∧
      FirstUnmatched r.behind r.left := by
  obtain ⟨r, hreaches, hnext, hr⟩ := Reading.exists_last ts
  cases hread : ofTokens ts with
  | ok es =>
    obtain ⟨hbalanced, htokens⟩ := hr.accepted hnext (hr.outcome.trans hread)
    refine ⟨iff_of_true ⟨es, rfl⟩ hbalanced, ?_, ?_⟩
    · rintro es ⟨⟩
      exact htokens
    · rintro stop ⟨⟩
  | error stop =>
    obtain ⟨hbalanced, hstop, hfirst⟩ := hr.refused hnext (hr.outcome.trans hread)
    refine ⟨iff_of_false ?_ hbalanced, ?_, ?_⟩
    · rintro ⟨es, ⟨⟩⟩
    · rintro es ⟨⟩
    · rintro stop ⟨⟩
      exact ⟨r, hreaches, hnext, hr.tokens, hstop, hfirst⟩

/-- `(a) ) (`, which is refused at its second closing parenthesis although the list
after it is still open. -/
def unmatchedTokens : List Token :=
  [.opening, .atom (.symbol "a"), .closing, .closing, .opening]

theorem ofTokens_accepts_balanced_unmatched :
    (ofTokens (unmatchedTokens.take 3) = .ok [.list [.symbol "a"]] ∧
      tokensAll [.list [.symbol "a"]] = unmatchedTokens.take 3) ∧
    ofTokens unmatchedTokens = .error (.found .closing) ∧
    ∃ r : Reading, (Reading.start unmatchedTokens).Reaches r ∧ r.next = none ∧
      r.behind ++ r.left = unmatchedTokens ∧ .found .closing = Stop.ofRest r.left ∧
      FirstUnmatched r.behind r.left :=
  ⟨⟨rfl, (ofTokens_accepts_balanced _).2.1 _ rfl⟩, rfl,
    (ofTokens_accepts_balanced unmatchedTokens).2.2 _ rfl⟩

end TupleLogic.SExpr
