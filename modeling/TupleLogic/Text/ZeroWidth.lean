import TupleLogic.Text.Combining
import TupleLogic.Text.Ignorable

/-! Characters that take no column of their own because they are drawn on, or
as part of, a neighbour. -/

namespace TupleLogic.Text

/-- Signs that enclose or precede what follows, and the vowels and final
consonants of Hangul syllables. -/
def attachedRanges : List (Nat × Nat) :=
  [(0x605, 0x605), (0x70f, 0x70f), (0x890, 0x891), (0x8e2, 0x8e2), (0xd4e, 0xd4e), (0x1160, 0x11ff),
   (0xa8fa, 0xa8fa), (0xd7b0, 0xd7c6), (0xd7cb, 0xd7fb), (0x111c2, 0x111c3), (0x113d1, 0x113d1),
   (0x1193f, 0x1193f), (0x11941, 0x11941), (0x11a84, 0x11a89), (0x11d46, 0x11d46),
   (0x11f02, 0x11f02)]

/-- Marks that came after the others, as far as they are known. -/
def laterMarkRanges : List (Nat × Nat) :=
  [(0x5c9, 0x5c9), (0x10ecf, 0x10ecf), (0x10ef0, 0x10ef0), (0x11df0, 0x11df0), (0x1d128, 0x1d128),
   (0x1d252, 0x1d252), (0x1d25b, 0x1d25b), (0x1d25f, 0x1d25f), (0x1d281, 0x1d281)]

/-- Marks that keep a column: the Tifinagh joiner, which is drawn where it joins
nothing, and the halfwidth voicing marks. -/
def spacingMarkRanges : List (Nat × Nat) := [(0x2d7f, 0x2d7f), (0xff9e, 0xff9f)]

def isZeroWidth (c : Char) : Bool :=
  (isIgnorable c || isCombining c || inRanges attachedRanges c || inRanges laterMarkRanges c) &&
    !inRanges spacingMarkRanges c

end TupleLogic.Text
