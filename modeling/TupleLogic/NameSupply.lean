/-! Fresh names for what an encoding generates. Variables, elements and sets
are counted apart, each from one on, and a name is never handed out twice
until the supply is reset. -/

namespace TupleLogic

/-- How many names of each kind have been handed out. -/
structure NameSupply where
  variableCount : Nat := 0
  elementCount : Nat := 0
  setCount : Nat := 0
  deriving DecidableEq, Repr, Inhabited

namespace NameSupply

def variableName (n : Nat) : String := "_x" ++ toString n

def elementName (n : Nat) : String := "_a" ++ toString n

def setName (n : Nat) : String := "_S" ++ toString n

def freshVariable (s : NameSupply) : String × NameSupply :=
  (variableName (s.variableCount + 1), { s with variableCount := s.variableCount + 1 })

def freshElement (s : NameSupply) : String × NameSupply :=
  (elementName (s.elementCount + 1), { s with elementCount := s.elementCount + 1 })

def freshSet (s : NameSupply) : String × NameSupply :=
  (setName (s.setCount + 1), { s with setCount := s.setCount + 1 })

def reset : NameSupply := {}

end NameSupply

end TupleLogic
