import TupleLogic.Text.Combining
import TupleLogic.Text.Ignorable
import TupleLogic.Text.Unprintable

/-! Text between double quotes, such that it stays on one line and every
character of it can be told: line breaks, tabs, quotes and backslashes have
short escapes, and characters without a printed form of their own are given
by their code point. -/

namespace TupleLogic.Text

def escaped (c : Char) : List Char :=
  if c = '"' then ['\\', '"']
  else if c = '\\' then ['\\', '\\']
  else if c = '\n' then ['\\', 'n']
  else if c = '\r' then ['\\', 'r']
  else if c = '\t' then ['\\', 't']
  else if c.toNat = 0 then ['\\', '0']
  else if isCombining c || isIgnorable c || isUnprintable c then
    "\\u\x7b".toList ++ Nat.toDigits 16 c.toNat ++ "\x7d".toList
  else [c]

def quoted (s : String) : String :=
  String.ofList ('"' :: s.toList.flatMap escaped ++ ['"'])

end TupleLogic.Text
