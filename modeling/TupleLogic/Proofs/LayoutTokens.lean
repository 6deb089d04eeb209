import TupleLogic.Layout.Colour
import TupleLogic.Proofs.Lexing
import TupleLogic.Proofs.SExprTokens

/-! What a layout is read as. A block whose texts are atoms stands for an
s-expression, and is read as that s-expression on every page: whether it is
broken into lines changes the blanks between its tokens and nothing else. -/

namespace TupleLogic.Layout

open Token

/-- The characters of the pieces. -/
def chars (ps : List Piece) : List Char := ps.flatMap fun p => p.plain.toList

theorem chars_cons (p : Piece) (ps : List Piece) : chars (p :: ps) = p.plain.toList ++ chars ps :=
  List.flatMap_cons

theorem chars_append (ps qs : List Piece) : chars (ps ++ qs) = chars ps ++ chars qs :=
  List.flatMap_append

theorem chars_text (style : Style) (s : String) : chars [.text style s] = s.toList :=
  List.append_nil _

theorem chars_space (ps : List Piece) : chars (.space :: ps) = ' ' :: chars ps := rfl

theorem chars_newline (indent : Nat) (ps : List Piece) :
    chars (.newline indent :: ps) = '\n' :: (List.replicate indent ' ' ++ chars ps) := by
  have h : (Piece.newline indent).plain.toList = '\n' :: List.replicate indent ' ' := by
    simp [Piece.plain, Piece.render]
  rw [chars_cons, h, List.cons_append]

theorem chars_parentheses (depth : Nat) (ps : List Piece) :
    chars (Block.openParen depth :: ps ++ [Block.closeParen depth]) = '(' :: (chars ps ++ [')']) := by
  simp [chars, Piece.plain, Piece.render, Block.openParen, Block.closeParen]

/-- Text that does not lengthen the token before it. -/
def Follows (cs : List Char) : Prop := ∀ rest, Delimited rest → Delimited (cs ++ rest)

theorem follows_nil : Follows [] := fun _ h => h

theorem follows_blank {c : Char} (cs : List Char) (h : Text.isBlank c = true) : Follows (c :: cs) :=
  fun _ _ => delimited_blank _ h

namespace Block

mutual
/-- The block stands for the s-expression. -/
def Spells : Block → SExpr → Prop
  | .text _ s, .atom a => a.isComment = false ∧ Lexes s.toList [.atom a]
  | .form _ head args, .list (e :: es) => head.Spells e ∧ SpellsAll args es
  | .group _ items, .list es => SpellsAll items es
  | _, _ => False

def SpellsAll : List Block → List SExpr → Prop
  | [], [] => True
  | b :: bs, e :: es => b.Spells e ∧ SpellsAll bs es
  | _, _ => False
end

mutual
theorem Spells.commentFree : ∀ {b : Block} {e : SExpr}, b.Spells e → e.commentFree = true
  | .text _ s, .atom a, h => by
    rw [Spells] at h
    rw [SExpr.commentFree, h.1, Bool.not_false]
  | .form _ head args, .list (e :: es), h => by
    rw [Spells] at h
    rw [SExpr.commentFree, SExpr.commentFreeAll, h.1.commentFree, SpellsAll.commentFree h.2,
      Bool.and_true]
  | .group _ items, .list es, h => by
    rw [Spells] at h
    rw [SExpr.commentFree, SpellsAll.commentFree h]

theorem SpellsAll.commentFree : ∀ {bs : List Block} {es : List SExpr}, SpellsAll bs es →
    SExpr.commentFreeAll es = true
  | [], [], _ => rfl
  | b :: bs, e :: es, h => by
    rw [SpellsAll] at h
    rw [SExpr.commentFreeAll, h.1.commentFree, SpellsAll.commentFree h.2, Bool.and_true]
end

/-- A head with arguments after it, between parentheses. -/
theorem lexes_form {depth : Nat} {head args : List Piece} {e : SExpr} {es : List SExpr}
    (hhead : Lexes (chars head) e.tokens) (hargs : Lexes (chars args) (SExpr.tokensAll es))
    (hfollows : Follows (chars args)) :
    Lexes (chars (openParen depth :: head ++ args ++ [closeParen depth]))
      (SExpr.list (e :: es)).tokens := by
  rw [List.cons_append, chars_parentheses, chars_append]
  exact (hhead.append hargs hfollows).parenthesized

theorem lexes_group {depth : Nat} {items : List Piece} {es : List SExpr}
    (h : Lexes (chars items) (SExpr.tokensAll es)) :
    Lexes (chars (openParen depth :: items ++ [closeParen depth])) (SExpr.list es).tokens := by
  rw [chars_parentheses]
  exact h.parenthesized

/-! ## One line -/

mutual
theorem Spells.flat : ∀ {b : Block} {e : SExpr}, b.Spells e → Lexes (chars b.flat) e.tokens
  | .text style s, .atom a, h => by
    rw [Spells] at h
    rw [Block.flat, chars_text]
    exact h.2
  | .form _ head args, .list (e :: es), h => by
    rw [Spells] at h
    rw [Block.flat]
    obtain ⟨hargs, hfollows⟩ := SpellsAll.flatAfter h.2
    exact lexes_form h.1.flat hargs hfollows
  | .group _ items, .list es, h => by
    rw [Spells] at h
    rw [Block.flat]
    refine lexes_group ?_
    cases items with
    | nil =>
      cases es with
      | nil => exact lexes_nil
      | cons e es => exact h.elim
    | cons b bs =>
      cases es with
      | nil => exact h.elim
      | cons e es =>
        rw [SpellsAll] at h
        obtain ⟨hargs, hfollows⟩ := SpellsAll.flatAfter h.2
        rw [flatAll, chars_append, SExpr.tokensAll]
        exact h.1.flat.append hargs hfollows

theorem SpellsAll.flatAfter : ∀ {bs : List Block} {es : List SExpr}, SpellsAll bs es →
    Lexes (chars (flatAfter bs)) (SExpr.tokensAll es) ∧ Follows (chars (flatAfter bs))
  | [], [], _ => ⟨lexes_nil, follows_nil⟩
  | b :: bs, e :: es, h => by
    rw [SpellsAll] at h
    obtain ⟨hbs, hfollows⟩ := SpellsAll.flatAfter h.2
    rw [Block.flatAfter, List.cons_append, chars_space, chars_append, SExpr.tokensAll]
    exact ⟨(h.1.flat.append hbs hfollows).blank rfl, follows_blank _ rfl⟩
end

/-! ## Any page -/

mutual
/-- A block is read as what it stands for, wherever its lines end. -/
theorem Spells.layout : ∀ {b : Block} {e : SExpr} (width indent column after : Nat),
    b.Spells e → Lexes (chars (b.layout width indent column after)) e.tokens
  | .text style s, .atom a, width, indent, column, after, h => by
    rw [Spells] at h
    rw [Block.layout, chars_text]
    exact h.2
  | .form _ head args, .list (e :: es), width, indent, column, after, h => by
    rw [Block.layout]
    split
    · exact h.flat
    · rw [Spells] at h
      obtain ⟨hargs, hfollows⟩ := SpellsAll.lines width (indent + 2) (after + 1) h.2
      exact lexes_form (h.1.layout _ _ _ _) hargs hfollows
  | .group _ items, .list es, width, indent, column, after, h => by
    rw [Block.layout]
    split
    · exact h.flat
    · rw [Spells] at h
      refine lexes_group ?_
      cases items with
      | nil =>
        cases es with
        | nil => exact lexes_nil
        | cons e es => exact h.elim
      | cons b bs =>
        cases es with
        | nil => exact h.elim
        | cons e es =>
          rw [SpellsAll] at h
          obtain ⟨hlines, hfollows⟩ := SpellsAll.lines width (indent + 1) (after + 1) h.2
          rw [layoutAll, chars_append, SExpr.tokensAll]
          exact (h.1.layout _ _ _ _).append hlines hfollows

theorem SpellsAll.lines : ∀ {bs : List Block} {es : List SExpr} (width indent after : Nat),
    SpellsAll bs es → Lexes (chars (layoutLines width indent after bs)) (SExpr.tokensAll es) ∧
      Follows (chars (layoutLines width indent after bs))
  | [], [], width, indent, after, _ => ⟨lexes_nil, follows_nil⟩
  | b :: bs, e :: es, width, indent, after, h => by
    rw [SpellsAll] at h
    obtain ⟨hbs, hfollows⟩ := SpellsAll.lines width indent after h.2
    rw [layoutLines, List.cons_append, chars_newline, chars_append, SExpr.tokensAll]
    refine ⟨?_, follows_blank _ rfl⟩
    exact (((h.1.layout _ _ _ _).append hbs hfollows).blanks indent).blank rfl
end

end Block

end TupleLogic.Layout
