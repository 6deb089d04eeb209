import TupleLogic.Text.DisplayWidth

/-! Text made of nested parentheses, laid out for a page width. A block goes
on one line if it fits there together with what must follow it on that line;
otherwise each of its arguments starts a line of its own, and every inner
block is tried again. What follows a block is known by its width alone: the
closing parentheses up to the next place where a line may end. -/

namespace TupleLogic.Layout

/-- What a piece of text is, for the sake of its colour. A parenthesis has the
depth of the block that it belongs to. -/
inductive Style where
  | paren (depth : Nat)
  | keyword
  | operator
  | name
  | sort
  | literal
  | comment
  deriving DecidableEq, Repr

/-- Blocks in parentheses have the depth that they were built with, which is a
colour and no part of the layout. -/
inductive Block where
  | text (style : Style) (content : String)
  /-- A head with its arguments, which are indented by two when they are broken. -/
  | form (depth : Nat) (head : Block) (args : List Block)
  /-- Items on a par, which are indented by one when they are broken. -/
  | group (depth : Nat) (items : List Block)
  deriving Repr, Inhabited

/-- What a layout writes. -/
inductive Piece where
  | text (style : Style) (content : String)
  | space
  /-- A line end, and the indentation of the next line. -/
  | newline (indent : Nat)
  deriving DecidableEq, Repr

namespace Block

mutual
/-- The width of a block on one line. -/
def flatWidth : Block → Nat
  | .text _ s => Text.width s
  | .form _ head args => 2 + head.flatWidth + flatWidths args
  | .group _ items => 2 + (flatWidths items - 1)

/-- The width of blocks on one line, each after a blank. -/
def flatWidths : List Block → Nat
  | [] => 0
  | b :: bs => 1 + b.flatWidth + flatWidths bs
end

def openParen (depth : Nat) : Piece := .text (.paren depth) "("

def closeParen (depth : Nat) : Piece := .text (.paren depth) ")"

mutual
/-- A block on one line. -/
def flat : Block → List Piece
  | .text style s => [.text style s]
  | .form depth head args => openParen depth :: head.flat ++ flatAfter args ++ [closeParen depth]
  | .group depth items => openParen depth :: flatAll items ++ [closeParen depth]

/-- Blocks on one line, each after a blank. -/
def flatAfter : List Block → List Piece
  | [] => []
  | b :: bs => .space :: b.flat ++ flatAfter bs

/-- Blocks on one line with blanks between them. -/
def flatAll : List Block → List Piece
  | [] => []
  | b :: bs => b.flat ++ flatAfter bs
end

mutual
/-- A block on a page of `width` columns, where it starts at `column`, lines
below it are indented by `indent`, and `after` columns must follow on its last
line. -/
def layout (width indent column after : Nat) : Block → List Piece
  | .text style s => [.text style s]
  | b@(.form depth head args) =>
    if column + b.flatWidth + after ≤ width then b.flat
    else
      openParen depth ::
        head.layout width indent (column + 1) (if args.isEmpty then after + 1 else 0) ++
        layoutLines width (indent + 2) (after + 1) args ++ [closeParen depth]
  | b@(.group depth items) =>
    if column + b.flatWidth + after ≤ width then b.flat
    else
      openParen depth :: layoutAll width (indent + 1) (column + 1) (after + 1) items ++
        [closeParen depth]

/-- Blocks on lines of their own, each below the line before. -/
def layoutLines (width indent after : Nat) : List Block → List Piece
  | [] => []
  | b :: bs =>
    .newline indent :: b.layout width indent indent (if bs.isEmpty then after else 0) ++
      layoutLines width indent after bs

/-- Blocks on lines of their own, the first where the line stands. -/
def layoutAll (width indent column after : Nat) : List Block → List Piece
  | [] => []
  | b :: bs =>
    b.layout width indent column (if bs.isEmpty then after else 0) ++
      layoutLines width indent after bs
end

end Block

end TupleLogic.Layout
