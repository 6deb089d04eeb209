import TupleLogic.Text.Decimal

/-! Strings of TOML documents. Each reader takes the characters that are left
and gives back what it read with what is left then, or nothing if the text is
malformed. -/

namespace TupleLogic.Toml

/-- Controls other than the tab stand nowhere in a document but at line ends. -/
def isControl (c : Char) : Bool := c.toNat < 0x20 && c != '\t' || c.toNat == 0x7f

def hexValue (c : Char) : Nat :=
  if Text.isDigit c then c.toNat - '0'.toNat
  else if 'a' ≤ c ∧ c ≤ 'f' then c.toNat - 'a'.toNat + 10
  else c.toNat - 'A'.toNat + 10

def isHex (c : Char) : Bool :=
  Text.isDigit c || 'a' ≤ c ∧ c ≤ 'f' || 'A' ≤ c ∧ c ≤ 'F'

def valueIn (base : Nat) (ds : List Char) : Nat :=
  ds.foldl (fun n d => base * n + hexValue d) 0

/-- The character with a given code point in hexadecimal digits. -/
def codePoint? (ds : List Char) : Option Char :=
  if ds.all isHex && (valueIn 16 ds).isValidChar then some (Char.ofNat (valueIn 16 ds)) else none

/-- The character that an escape stands for, read after its backslash. -/
def escape : List Char → Option (Char × List Char)
  | 'b' :: r => some (Char.ofNat 8, r)
  | 't' :: r => some ('\t', r)
  | 'n' :: r => some ('\n', r)
  | 'f' :: r => some (Char.ofNat 12, r)
  | 'r' :: r => some ('\r', r)
  | 'e' :: r => some (Char.ofNat 27, r)
  | '"' :: r => some ('"', r)
  | '\\' :: r => some ('\\', r)
  | 'x' :: r => hex 2 r
  | 'u' :: r => hex 4 r
  | 'U' :: r => hex 8 r
  | _ => none
where
  hex (n : Nat) (r : List Char) : Option (Char × List Char) :=
    if r.length < n then none else (codePoint? (r.take n)).map fun c => (c, r.drop n)

/-- The rest of a string in double quotes on one line. -/
def basicString : Nat → List Char → Option (List Char × List Char)
  | 0, _ => none
  | _, [] => none
  | _, '"' :: r => some ([], r)
  | n + 1, '\\' :: r => do
    let (c, r) ← escape r
    let (cs, r) ← basicString n r
    return (c :: cs, r)
  | n + 1, c :: r => do
    if isControl c then none
    let (cs, r) ← basicString n r
    return (c :: cs, r)

/-- The rest of a string in single quotes on one line, without escapes. -/
def literalString : List Char → Option (List Char × List Char)
  | [] => none
  | '\'' :: r => some ([], r)
  | c :: r => do
    if isControl c then none
    let (cs, r) ← literalString r
    return (c :: cs, r)

def isSpace (c : Char) : Bool := c == ' ' || c == '\t'

def skipSpace (cs : List Char) : List Char := cs.dropWhile isSpace

/-- What follows a line end, if one stands here. -/
def newline? : List Char → Option (List Char)
  | '\n' :: r => some r
  | '\r' :: '\n' :: r => some r
  | _ => none

/-- Quotes that stand right before the three closing ones belong to the string. -/
def closeMultiline (quote : Char) : List Char → List Char × List Char
  | a :: b :: r =>
    if a = quote && b = quote then ([a, b], r)
    else if a = quote then ([a], b :: r) else ([], a :: b :: r)
  | [a] => if a = quote then ([a], []) else ([], [a])
  | [] => ([], [])

/-- What follows blanks and line ends. -/
def skipLines : List Char → List Char
  | ' ' :: r | '\t' :: r | '\n' :: r | '\r' :: '\n' :: r => skipLines r
  | r => r

/-- The rest of a string between triple double quotes. A backslash at the end
of a line joins it with the text after the following blanks. -/
def multilineBasic : Nat → List Char → Option (List Char × List Char)
  | 0, _ => none
  | _, [] => none
  | _, '"' :: '"' :: '"' :: r => some (closeMultiline '"' r)
  | n + 1, '\\' :: r =>
    match newline? (skipSpace r) with
    | some r => multilineBasic n (skipLines r)
    | none => do
      let (c, r) ← escape r
      let (cs, r) ← multilineBasic n r
      return (c :: cs, r)
  | n + 1, c :: r =>
    match newline? (c :: r) with
    | some r => do
      let (cs, r) ← multilineBasic n r
      return ('\n' :: cs, r)
    | none => do
      if isControl c then none
      let (cs, r) ← multilineBasic n r
      return (c :: cs, r)

/-- The rest of a string between triple single quotes. -/
def multilineLiteral : Nat → List Char → Option (List Char × List Char)
  | 0, _ => none
  | _, [] => none
  | _, '\'' :: '\'' :: '\'' :: r => some (closeMultiline '\'' r)
  | n + 1, c :: r =>
    match newline? (c :: r) with
    | some r => do
      let (cs, r) ← multilineLiteral n r
      return ('\n' :: cs, r)
    | none => do
      if isControl c then none
      let (cs, r) ← multilineLiteral n r
      return (c :: cs, r)

/-- A line end right after the opening quotes does not count. -/
def dropFirstNewline (cs : List Char) : List Char := (newline? cs).getD cs

/-- A string of any of the four kinds. -/
def string? (cs : List Char) : Option (List Char × List Char) :=
  match cs with
  | '"' :: '"' :: '"' :: r => multilineBasic (r.length + 1) (dropFirstNewline r)
  | '\'' :: '\'' :: '\'' :: r => multilineLiteral (r.length + 1) (dropFirstNewline r)
  | '"' :: r => basicString (r.length + 1) r
  | '\'' :: r => literalString r
  | _ => none

end TupleLogic.Toml
