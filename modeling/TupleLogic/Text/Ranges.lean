/-! Classes of characters given by ranges of code points. -/

namespace TupleLogic.Text

/-- Both ends of a range belong to it. -/
def inRanges (ranges : List (Nat × Nat)) (c : Char) : Bool :=
  ranges.any fun r => decide (r.1 ≤ c.toNat) && decide (c.toNat ≤ r.2)

end TupleLogic.Text
