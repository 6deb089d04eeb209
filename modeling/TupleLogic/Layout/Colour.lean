import TupleLogic.Layout.Block

/-! Pieces of a layout as text, plain or with the colours of a terminal.
Colours are control sequences around each styled text; blanks, line ends and
indentation carry none. -/

namespace TupleLogic.Layout

inductive Colour where
  | black
  | red
  | green
  | yellow
  | blue
  | magenta
  | cyan
  | white
  deriving DecidableEq, Repr

def Colour.code : Colour → Nat
  | .black => 0
  | .red => 1
  | .green => 2
  | .yellow => 3
  | .blue => 4
  | .magenta => 5
  | .cyan => 6
  | .white => 7

structure Appearance where
  colour : Option Colour := none
  bold : Bool := false
  dimmed : Bool := false
  italic : Bool := false
  deriving DecidableEq, Repr

/-- The colour of a parenthesis; six of them take turns as depth grows. -/
def Colour.ofDepth (depth : Nat) : Colour :=
  match depth % 6 with
  | 0 => .blue
  | 1 => .green
  | 2 => .white
  | 3 => .yellow
  | 4 => .red
  | _ => .magenta

def Style.appearance : Style → Appearance
  | .paren depth => { colour := some (Colour.ofDepth depth), dimmed := true }
  | .keyword => { colour := some .cyan, bold := true }
  | .operator => { colour := some .yellow, bold := true }
  | .name => { colour := some .green }
  | .sort => { colour := some .magenta }
  | .literal => { colour := some .red }
  | .comment => { dimmed := true, italic := true }

/-- The control sequence with the given code. -/
def control (code : String) : String := "\x1b[" ++ code ++ "m"

/-- The sequences that start an appearance from a clean terminal. -/
def Appearance.controls (a : Appearance) : String :=
  control "0" ++ (if a.bold then control "1" else "") ++ (if a.dimmed then control "2" else "") ++
    (if a.italic then control "3" else "") ++
    match a.colour with
    | some c => control ("3" ++ toString c.code)
    | none => ""

namespace Piece

/-- The text of a piece, where `paint` writes the styled ones. -/
def render (paint : Style → String → String) : Piece → String
  | .text style s => paint style s
  | .space => " "
  | .newline indent => "\n" ++ String.ofList (List.replicate indent ' ')

def plain (p : Piece) : String := p.render fun _ s => s

def coloured (p : Piece) : String :=
  p.render fun style s => style.appearance.controls ++ s ++ control "0"

end Piece

end TupleLogic.Layout
