import TupleLogic.Symbol
import TupleLogic.Text.Blank
import TupleLogic.Text.Decimal

/-! Tokens of solver text. Blanks separate tokens and mean nothing else; a
comment is a token, because it may name an assertion or report a cardinality.
Tokens other than parentheses are atoms. Every comment, numeral, keyword and
plain symbol is the longest one that starts where it starts. -/

namespace TupleLogic

inductive Atom where
  | symbol (name : String)
  | keyword (name : String)
  | numeral (value : Nat)
  | string (content : String)
  | comment (text : String)
  /-- A comment that reports how many elements a sort has. -/
  | cardinality (sort : String) (count : Nat)
  deriving DecidableEq, Repr

inductive Token where
  | opening
  | closing
  | atom (a : Atom)
  deriving DecidableEq, Repr

/-- Where reading stops for want of anything that fits. -/
inductive Stop (α : Type) where
  | found (a : α)
  | endOfInput
  deriving DecidableEq, Repr

namespace Stop

/-- At the head of what is left. -/
def ofRest {α : Type} : List α → Stop α
  | [] => .endOfInput
  | a :: _ => .found a

end Stop

namespace Token

open Text

/-- A comment of the form `cardinality of S is n` is a report. -/
def commentAtom (text : List Char) : Atom :=
  match words text with
  | [w₁, w₂, sort, w₃, n] =>
    if w₁ = "cardinality".toList ∧ w₂ = "of".toList ∧ w₃ = "is".toList then
      match count? n with
      | some count => .cardinality (String.ofList sort) count
      | none => .comment (String.ofList text)
    else .comment (String.ofList text)
  | _ => .comment (String.ofList text)

def isCommentChar (c : Char) : Bool := c != '\n'

def isStringChar (c : Char) : Bool := c != '"'

/-- The digits of a numeral after its first one; a zero stands alone. -/
def numeralTail (c : Char) (cs : List Char) : List Char :=
  if c = '0' then [] else cs.takeWhile isDigit

/-- The token that starts with `c`, and what is left after it. -/
def lexeme (c : Char) (cs : List Char) : Except (Stop Char) (Token × List Char) :=
  if c = '(' then .ok (.opening, cs)
  else if c = ')' then .ok (.closing, cs)
  else if c = ';' then
    .ok (.atom (commentAtom (trim (cs.takeWhile isCommentChar))), cs.dropWhile isCommentChar)
  else if c = ':' then
    match cs.takeWhile Symbol.isSymbolChar with
    | [] => .error (Stop.ofRest cs)
    | name => .ok (.atom (.keyword (String.ofList name)), cs.dropWhile Symbol.isSymbolChar)
  else if c = '"' then
    match cs.dropWhile isStringChar with
    | [] => .error .endOfInput
    | _ :: rest => .ok (.atom (.string (String.ofList (cs.takeWhile isStringChar))), rest)
  else if c = '|' then
    match cs.dropWhile Symbol.isQuotable with
    | '|' :: rest =>
      .ok (.atom (.symbol (String.ofList (cs.takeWhile Symbol.isQuotable))), rest)
    | rest => .error (Stop.ofRest rest)
  else if isDigit c then
    let digits := c :: numeralTail c cs
    if fitsUnsigned64 (decimalValue digits) then
      .ok (.atom (.numeral (decimalValue digits)), cs.drop (numeralTail c cs).length)
    else .error (.found c)
  else if Symbol.isSymbolChar c then
    .ok (.atom (.symbol (String.ofList (c :: cs.takeWhile Symbol.isSymbolChar))),
      cs.dropWhile Symbol.isSymbolChar)
  else .error (.found c)

/-- A token is never followed by more than what followed its first character. -/
theorem length_of_lexeme {c : Char} {cs rest : List Char} {t : Token}
    (h : lexeme c cs = .ok (t, rest)) : rest.length ≤ cs.length := by
  have hd (p : Char → Bool) : (cs.dropWhile p).length ≤ cs.length :=
    (List.dropWhile_suffix p).length_le
  unfold lexeme at h
  split at h
  · cases h; exact Nat.le_refl _
  split at h
  · cases h; exact Nat.le_refl _
  split at h
  · cases h; exact hd _
  split at h
  · split at h
    · cases h
    · cases h; exact hd _
  split at h
  · split at h
    · cases h
    · rename_i he
      cases h
      have := hd isStringChar
      rw [he] at this
      exact Nat.le_of_succ_le this
  split at h
  · split at h
    · rename_i he
      cases h
      have := hd Symbol.isQuotable
      rw [he] at this
      exact Nat.le_of_succ_le this
    · cases h
  split at h
  · simp only at h
    split at h
    · cases h; simp
    · cases h
  split at h
  · cases h; exact hd _
  · cases h

/-- The tokens of a text, blanks before, between and after them. -/
def tokens (cs : List Char) : Except (Stop Char) (List Token) :=
  match _hb : cs.dropWhile isBlank with
  | [] => .ok []
  | c :: rest =>
    match _hl : lexeme c rest with
    | .error stop => .error stop
    | .ok (t, rest') => do return t :: (← tokens rest')
termination_by cs.length
decreasing_by
  have hr := length_of_lexeme _hl
  have hs := (List.dropWhile_suffix (l := cs) isBlank).length_le
  rw [_hb, List.length_cons] at hs
  omega

/-- The tokens of a whole text. One that is not empty must hold a token:
blanks alone are not accepted. -/
def ofText (s : String) : Except (Stop Char) (List Token) :=
  if !s.toList.isEmpty && s.toList.all isBlank then .error .endOfInput else tokens s.toList

end Token

end TupleLogic
