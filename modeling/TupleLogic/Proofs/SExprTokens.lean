import TupleLogic.SExpr

/-! The tokens of an s-expression. Reading them gives the s-expression back,
with whatever comes before and after them, since `build` only ever looks at
the lists that are still open. -/

namespace TupleLogic

/-- Comments name assertions; inside parentheses they mean nothing. -/
def Atom.isComment : Atom → Bool
  | .comment _ => true
  | _ => false

namespace SExpr

mutual
def tokens : SExpr → List Token
  | .atom a => [.atom a]
  | .list items => .opening :: (tokensAll items ++ [.closing])

def tokensAll : List SExpr → List Token
  | [] => []
  | e :: es => e.tokens ++ tokensAll es
end

mutual
/-- No comment occurs in the s-expression. -/
def commentFree : SExpr → Bool
  | .atom a => !a.isComment
  | .list items => commentFreeAll items

def commentFreeAll : List SExpr → Bool
  | [] => true
  | e :: es => e.commentFree && commentFreeAll es
end

theorem tokensAll_append (es fs : List SExpr) :
    tokensAll (es ++ fs) = tokensAll es ++ tokensAll fs := by
  induction es with
  | nil => rfl
  | cons e es ih => rw [List.cons_append, tokensAll, tokensAll, ih, List.append_assoc]

mutual
theorem build_tokens : ∀ (e : SExpr) (opened : List (List SExpr)) (items : List SExpr)
    (ts : List Token), build opened items (e.tokens ++ ts) = build opened (e :: items) ts
  | .atom a, opened, items, ts => by
    rw [tokens, List.singleton_append, build]
  | .list es, opened, items, ts => by
    rw [tokens, List.cons_append, List.append_assoc, build, build_tokensAll es,
      List.singleton_append, build, List.append_nil, List.reverse_reverse]

theorem build_tokensAll : ∀ (es : List SExpr) (opened : List (List SExpr)) (items : List SExpr)
    (ts : List Token),
    build opened items (tokensAll es ++ ts) = build opened (es.reverse ++ items) ts
  | [], opened, items, ts => rfl
  | e :: es, opened, items, ts => by
    rw [tokensAll, List.append_assoc, build_tokens e, build_tokensAll es, List.reverse_cons,
      List.append_assoc, List.singleton_append]
end

theorem ofTokens_tokensAll (es : List SExpr) : ofTokens (tokensAll es) = .ok es := by
  have h := build_tokensAll es [] [] []
  rw [List.append_nil, List.append_nil] at h
  rw [ofTokens, h, build, List.reverse_reverse]

theorem dropNestedComments_atom {a : Atom} (depth : Nat) (ts : List Token)
    (h : a.isComment = false) :
    dropNestedComments depth (.atom a :: ts) = .atom a :: dropNestedComments depth ts := by
  cases a with
  | comment c => cases h
  | symbol _ | keyword _ | numeral _ | string _ | cardinality _ _ => rfl

mutual
theorem dropNestedComments_tokens : ∀ (e : SExpr), e.commentFree = true →
    ∀ (depth : Nat) (ts : List Token),
      dropNestedComments depth (e.tokens ++ ts) = e.tokens ++ dropNestedComments depth ts
  | .atom a, h, depth, ts => by
    rw [commentFree, Bool.not_eq_true'] at h
    rw [tokens, List.singleton_append, List.singleton_append, dropNestedComments_atom depth ts h]
  | .list es, h, depth, ts => by
    rw [commentFree] at h
    rw [tokens, List.cons_append, List.cons_append, List.append_assoc, List.append_assoc,
      dropNestedComments, dropNestedComments_tokensAll es h, List.singleton_append,
      dropNestedComments, Nat.add_sub_cancel]
    rfl

theorem dropNestedComments_tokensAll : ∀ (es : List SExpr), commentFreeAll es = true →
    ∀ (depth : Nat) (ts : List Token),
      dropNestedComments depth (tokensAll es ++ ts) = tokensAll es ++ dropNestedComments depth ts
  | [], _, depth, ts => rfl
  | e :: es, h, depth, ts => by
    rw [commentFreeAll, Bool.and_eq_true] at h
    rw [tokensAll, List.append_assoc, List.append_assoc, dropNestedComments_tokens e h.1,
      dropNestedComments_tokensAll es h.2]
end

/-- Comments may stand at the top, between s-expressions without comments. -/
def TopLevel (es : List SExpr) : Prop := ∀ e ∈ es, e.commentFree = true ∨ ∃ a, e = .atom a

theorem dropNestedComments_top {es : List SExpr} (h : TopLevel es) :
    dropNestedComments 0 (tokensAll es) = tokensAll es := by
  induction es with
  | nil => rfl
  | cons e es ih =>
    have ih := ih fun e he => h e (List.mem_cons_of_mem _ he)
    rw [tokensAll]
    rcases h e List.mem_cons_self with hfree | ⟨a, rfl⟩
    · rw [dropNestedComments_tokens e hfree, ih]
    · rw [tokens, List.singleton_append]
      cases ha : a.isComment with
      | false => rw [dropNestedComments_atom _ _ ha, ih]
      | true =>
        cases a with
        | comment c => rw [dropNestedComments, if_pos rfl, ih]
        | symbol _ | keyword _ | numeral _ | string _ | cardinality _ _ => cases ha

/-- The tokens of s-expressions are read as these s-expressions. -/
theorem ofTokens_dropNestedComments {es : List SExpr} (h : TopLevel es) :
    ofTokens (dropNestedComments 0 (tokensAll es)) = .ok es := by
  rw [dropNestedComments_top h, ofTokens_tokensAll]

end SExpr

end TupleLogic
