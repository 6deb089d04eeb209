import TupleLogic.Toml.Value

/-! TOML documents: lines that are empty, headers, or keys with their values.
Every reading step leaves fewer characters, so their number bounds the
recursion. -/

namespace TupleLogic.Toml

/-- What follows a comment, which ends with its line. -/
def comment? (cs : List Char) : Option (List Char) :=
  let inside := fun c => c != '\n' && c != '\r'
  if (cs.takeWhile inside).any isControl then none else some (cs.dropWhile inside)

/-- What follows the end of a line that has nothing more to say. -/
def lineEnd? (cs : List Char) : Option (List Char) := do
  let r ← match skipSpace cs with
    | '#' :: r => comment? r
    | r => some r
  if r.isEmpty then some r else newline? r

/-- What follows blanks, line ends and comments. -/
def trivia? : Nat → List Char → Option (List Char)
  | 0, _ => none
  | n + 1, cs =>
    match skipSpace cs with
    | '#' :: r => do trivia? n (← comment? r)
    | r => match newline? r with
      | some r => trivia? n r
      | none => some r

def isBareKeyChar (c : Char) : Bool := c.isAlphanum || c == '_' || c == '-'

def simpleKey? (cs : List Char) : Option (String × List Char) :=
  match cs with
  | '"' :: r => (basicString (r.length + 1) r).map fun (k, r) => (String.ofList k, r)
  | '\'' :: r => (literalString r).map fun (k, r) => (String.ofList k, r)
  | _ =>
    match cs.takeWhile isBareKeyChar with
    | [] => none
    | k => some (String.ofList k, cs.dropWhile isBareKeyChar)

/-- A key with the tables it is reached through, outermost first. -/
def key? : Nat → List Char → Option (List String × String × List Char)
  | 0, _ => none
  | n + 1, cs => do
    let (k, r) ← simpleKey? cs
    match skipSpace r with
    | '.' :: r => do
      let (path, last, r) ← key? n (skipSpace r)
      return (k :: path, last, r)
    | _ => return ([], k, r)

/-- What an unquoted value is made of. A date and a time may have a blank
between them. -/
def isScalarChar (c : Char) : Bool :=
  !(c == '=' || c == ',' || c == '[' || c == ']' || c == '\x7b' || c == '\x7d' || c == '#' ||
    c == '\t' || c == '\r' || c == '\n')

/-- The text of an unquoted value, without the blanks after it. -/
def scalarText (cs : List Char) : List Char :=
  ((cs.takeWhile isScalarChar).reverse.dropWhile (· == ' ')).reverse

def scalar? (cs : List Char) : Option Value :=
  if cs = "true".toList then some (.boolean true)
  else if cs = "false".toList then some (.boolean false)
  else if isDatetime cs then some .datetime
  else match integer? cs with
    | some n => some n.toValue
    | none => (float? cs).map FloatText.toValue

/-- Arrays and inline tables are nested no deeper. -/
def maxNesting : Nat := 80

/-- The table of an inline list of keys and values. -/
def inlineTable? (pairs : List (List String × String × Value)) : Option Value :=
  (pairs.foldlM (fun es (path, key, v) => Entries.insert key v path es) ([] : Entries)).map
    fun es => .table (entryValues es)

mutual
/-- A value that holds at most `depth` levels of arrays and inline tables. -/
def value? : Nat → Nat → List Char → Option (Value × List Char)
  | 0, _, _ => none
  | n + 1, depth, cs =>
    match cs, depth with
    | '[' :: _, 0 | '\x7b' :: _, 0 => none
    | '[' :: r, depth + 1 => do
      let (vs, r) ← elements? n depth (← trivia? (r.length + 1) r)
      return (.array vs, r)
    | '\x7b' :: r, depth + 1 => do
      let (pairs, r) ← pairs? n depth (← trivia? (r.length + 1) r)
      return (← inlineTable? pairs, r)
    | '"' :: _, _ | '\'' :: _, _ => do
      let (s, r) ← string? cs
      return (.string (String.ofList s), r)
    | _, _ => do
      let text := scalarText cs
      return (← scalar? text, cs.drop text.length)

/-- The elements of an array up to its end; a comma may stand after the last. -/
def elements? : Nat → Nat → List Char → Option (List Value × List Char)
  | 0, _, _ => none
  | n + 1, depth, cs =>
    match cs with
    | ']' :: r => some ([], r)
    | _ => do
      let (v, r) ← value? n depth cs
      match ← trivia? (r.length + 1) r with
      | ',' :: r => do
        let (vs, r) ← elements? n depth (← trivia? (r.length + 1) r)
        return (v :: vs, r)
      | ']' :: r => return ([v], r)
      | _ => none

/-- The entries of an inline table up to its end. Lines may end between any two
parts of it, but not within a dotted key. -/
def pairs? : Nat → Nat → List Char → Option (List (List String × String × Value) × List Char)
  | 0, _, _ => none
  | n + 1, depth, cs =>
    match cs with
    | '\x7d' :: r => some ([], r)
    | _ => do
      let (path, key, r) ← key? (cs.length + 1) cs
      let '=' :: r ← trivia? (r.length + 1) r | none
      let (v, r) ← value? n depth (← trivia? (r.length + 1) r)
      match ← trivia? (r.length + 1) r with
      | ',' :: r => do
        let (pairs, r) ← pairs? n depth (← trivia? (r.length + 1) r)
        return ((path, key, v) :: pairs, r)
      | '\x7d' :: r => return ([(path, key, v)], r)
      | _ => none
end

/-- A key and its value, which end their line. -/
def keyLine? (current : List String) (es : Entries) (cs : List Char) :
    Option (Entries × List Char) := do
  let (path, key, r) ← key? (cs.length + 1) cs
  let '=' :: r := skipSpace r | none
  let (v, r) ← value? (r.length + 1) maxNesting (skipSpace r)
  return (← es.descend (Entries.insert key v path) current, ← lineEnd? r)

/-- A header after its opening bracket or brackets, closed by as many; it
makes its table the current one. -/
def header? (close : List Char) (openAt : String → Entries → Option Entries) (es : Entries)
    (cs : List Char) : Option (List String × Entries × List Char) := do
  let (path, key, r) ← key? (cs.length + 1) (skipSpace cs)
  let r := skipSpace r
  if close.isPrefixOf r then
    return (path ++ [key], ← es.descend (openAt key) path, ← lineEnd? (r.drop close.length))
  else none

/-- Reads line by line into the table that the last header has opened. -/
def lines? : Nat → List String → Entries → List Char → Option Entries
  | 0, _, _, _ => none
  | n + 1, current, es, cs =>
    match skipSpace cs with
    | [] => some es
    | '[' :: '[' :: r => do
      let (current, es, r) ← header? [']', ']'] Entries.openElement es r
      lines? n current es r
    | '[' :: r => do
      let (current, es, r) ← header? [']'] Entries.openTable es r
      lines? n current es r
    | r =>
      match lineEnd? r with
      | some r => lines? n current es r
      | none => do
        let (es, r) ← keyLine? current es r
        lines? n current es r

/-- The top-level table of a document. A byte order mark may come first. -/
def parse? (text : String) : Option (List (String × Value)) :=
  let cs := match text.toList with
    | c :: r => if c.toNat = 0xfeff then r else c :: r
    | [] => []
  (lines? (cs.length + 2) [] [] cs).map entryValues

end TupleLogic.Toml
