import TupleLogic.Text.Emoji
import TupleLogic.Text.Ligature
import TupleLogic.Text.Wide

/-! How many columns a text takes on a terminal. An ASCII text takes one per
character, controls included. Elsewhere a character may be drawn together with
what follows it: emoji with their selectors, skin tones and joiners, flags, and
letters with a ligature. So a text is measured from its end, and what matters
of the characters already measured is kept as the tail. -/

namespace TupleLogic.Text

/-- The columns of a character that stands alone. -/
def charWidth (c : Char) : Nat :=
  if c.toNat ≤ 0xa0 then 1
  else if c.toNat = 0x17d8 then 3
  else if c.toNat = 0x115f || c.toNat = 0x17a4 then 2
  else if isZeroWidth c then 0
  else if isWide c then 2
  else 1

/-- What the measured text starts with, as far as a character before it can
change its width. -/
inductive Head where
  | plain
  | lineFeed
  | alef
  /-- The second part of a ligature, and whether a joiner stands before it. -/
  | ligature (part : Ligature) (joiner : Bool)
  | emoji
  | skinTone
  | regional
  | regionals
  /-- An emoji with a joiner before it. -/
  | joined
  | keycapJoined
  | regionalJoined
  /-- Regional indicators before a joined emoji, by the parity of their number. -/
  | evenRegionals
  | oddRegionals
  /-- The tags of a subdivision's flag, read from their end: the letters, and
  the digits before them. -/
  | tags (letters digits : Nat)
  deriving DecidableEq, Repr

/-- A selector changes the look of the character before it. -/
inductive Selector where
  | emoji
  | text
  /-- Asks for quotation marks of full width. -/
  | wideQuote
  deriving DecidableEq, Repr

structure Tail where
  head : Head := .plain
  selector : Option Selector := none
  deriving DecidableEq, Repr

/-- Letters join across a selector, and nothing else does. -/
def Head.letters : Head → Head
  | .alef => .alef
  | .ligature part joiner => .ligature part joiner
  | _ => .plain

def Head.isJoined : Head → Bool
  | .joined | .keycapJoined => true
  | _ => false

def Selector.ofChar? (c : Char) : Option Selector :=
  if c.toNat = 0xfe0f then some .emoji
  else if c.toNat = 0xfe0e then some .text
  else if c.toNat = 0xfe01 then some .wideQuote
  else none

def isQuote (c : Char) : Bool := inRanges [(0x2018, 0x2019), (0x201c, 0x201d)] c

def isJoiner (c : Char) : Bool := c.toNat == 0x200d

/-- The head of a text that starts with a character that nothing joins to. -/
def Head.ofChar (c : Char) : Head :=
  match Ligature.ofChar? c with
  | some part => .ligature part false
  | none =>
    if isAlef c then .alef
    else if isRegional c then .regional
    else if isSkinTone c then .skinTone
    else if isPicture c then .emoji
    else .plain

/-- A character before the tags of a subdivision's flag. A black flag starts
them, and then come three to six letters, or three digits and at most four
letters. -/
def Head.beforeTags (letters digits : Nat) (c : Char) : Option (Int × Head) :=
  if 0xe0061 ≤ c.toNat ∧ c.toNat ≤ 0xe007a ∧ digits = 0 ∧ letters < 6 then
    some (0, .tags (letters + 1) 0)
  else if 0xe0030 ≤ c.toNat ∧ c.toNat ≤ 0xe0039 ∧
      (digits = 0 ∧ letters ≤ 4 ∨ 0 < digits ∧ digits < 3) then
    some (0, .tags letters (digits + 1))
  else if c.toNat = 0x1f3f4 ∧ (digits = 0 ∧ 3 ≤ letters ∧ letters ≤ 6 ∨ digits = 3) then
    some (0, .emoji)
  else none

/-- What a character adds to the width in front of a head that it combines
with, and the head it makes. -/
def Head.combine (head : Head) (c : Char) : Option (Int × Head) :=
  match head with
  | .plain | .lineFeed | .keycapJoined => none
  | .alef =>
    if isLam c then some (0, .plain)
    else if isTransparent c then some (0, .alef)
    else none
  | .ligature part joiner =>
    if standsBetween c then some (0, .ligature part (joiner || isJoiner c))
    else match part.extend joiner c with
      | some (w, some part) => some (w, .ligature part false)
      | some (w, none) => some (w, .plain)
      | none => none
  | .emoji => if isJoiner c then some (0, .joined) else none
  | .skinTone =>
    if takesSkinTone c then some (0, .emoji)
    else if isJoiner c then some (0, .joined)
    else none
  | .regional => if isRegional c then some (1, .regionals) else none
  | .regionals =>
    if isRegional c then some (1, .regionals)
    else if isJoiner c then some (0, .joined)
    else none
  | .joined =>
    if c.toNat = 0x20e3 then some (0, .keycapJoined)
    else if isRegional c then some (1, .regionalJoined)
    else if isSkinTone c then some (0, .skinTone)
    else if c.toNat = 0xe007f then some (0, .tags 0 0)
    else if isPicture c then some (0, .emoji)
    else none
  | .regionalJoined => if isRegional c then some (-1, .evenRegionals) else none
  | .evenRegionals =>
    if isRegional c then some (3, .oddRegionals)
    else if isJoiner c then some (0, .joined)
    else none
  | .oddRegionals =>
    if isRegional c then some (-1, .evenRegionals)
    else if isJoiner c then some (0, .joined)
    else none
  | .tags letters digits => Head.beforeTags letters digits c

/-- A character in front of a head, with no selector between them. -/
def Head.push (c : Char) (head : Head) : Int × Tail :=
  if c = '\n' then (1, { head := .lineFeed })
  else if c = '\r' && head = .lineFeed then (0, {})
  else if c.toNat ≤ 0xa0 then (1, {})
  else match Selector.ofChar? c with
    | some .emoji => (0, ⟨if head.isJoined then head else head.letters, some .emoji⟩)
    | some s => (0, ⟨head.letters, some s⟩)
    | none =>
      match head.combine c with
      | some (w, head) => (w, { head := head })
      | none => (charWidth c, { head := Head.ofChar c })

/-- A character in front of a tail: what it adds to the width, and the tail it
makes. A picture before a joiner takes no column beside the one it joins. -/
def Tail.push (c : Char) (tail : Tail) : Int × Tail :=
  match tail.selector with
  | none => tail.head.push c
  | some .emoji =>
    if takesEmojiSelector c then (if tail.head.isJoined then 0 else 2, { head := .emoji })
    else tail.head.letters.push c
  | some .text => if takesTextSelector c then (1, {}) else tail.head.push c
  | some .wideQuote => if isQuote c then (2, {}) else tail.head.push c

/-- The width of a text and its tail. -/
def measure : List Char → Int × Tail
  | [] => (0, {})
  | c :: r =>
    let (n, tail) := measure r
    let (w, tail) := tail.push c
    (n + w, tail)

def isAscii (c : Char) : Bool := c.toNat < 128

def width (s : String) : Nat :=
  if s.toList.all isAscii then s.toList.length else (measure s.toList).1.toNat

end TupleLogic.Text
