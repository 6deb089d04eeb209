import TupleLogic.Script.Printer

/-! The settings of an encoding. -/

namespace TupleLogic

structure Settings where
  /-- The page width of printed scripts. -/
  width : Nat := Script.defaultWidth
  /-- Whether generated names start from one in every encoding. -/
  resetNames : Bool := true
  /-- Whether the columns of fields are constrained to their signatures. -/
  fieldTyping : Bool := true
  deriving DecidableEq, Repr, Inhabited

end TupleLogic
