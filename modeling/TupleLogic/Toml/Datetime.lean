import TupleLogic.Text.Decimal

/-! Dates and times of TOML documents: a date, a time of day, or both, and
then perhaps an offset. None of the settings is one, so that all that is asked
of them is whether they are well-formed. -/

namespace TupleLogic.Toml

/-- A number of exactly two digits, and what follows it. -/
def twoDigits? : List Char → Option (Nat × List Char)
  | a :: b :: r =>
    if Text.isDigit a && Text.isDigit b then
      some (10 * (a.toNat - '0'.toNat) + (b.toNat - '0'.toNat), r)
    else none
  | _ => none

def isLeapYear (year : Nat) : Bool :=
  year % 4 == 0 && (year % 100 != 0 || year % 400 == 0)

def daysInMonth (year month : Nat) : Nat :=
  if month = 2 then if isLeapYear year then 29 else 28
  else if month = 4 || month = 6 || month = 9 || month = 11 then 30
  else 31

/-- What follows a date of the calendar. -/
def date? (cs : List Char) : Option (List Char) := do
  let (century, r) ← twoDigits? cs
  let (year, r) ← twoDigits? r
  let '-' :: r := r | none
  let (month, r) ← twoDigits? r
  let '-' :: r := r | none
  let (day, r) ← twoDigits? r
  if 1 ≤ month ∧ month ≤ 12 ∧ 1 ≤ day ∧ day ≤ daysInMonth (100 * century + year) month then some r
  else none

/-- What follows hours and minutes. -/
def hourMinute? (cs : List Char) : Option (List Char) := do
  let (hour, r) ← twoDigits? cs
  let ':' :: r := r | none
  let (minute, r) ← twoDigits? r
  if hour ≤ 23 ∧ minute ≤ 59 then some r else none

/-- What follows the fraction of a second, if there is one. -/
def fraction? : List Char → Option (List Char)
  | '.' :: r => if r.head?.any Text.isDigit then some (r.dropWhile Text.isDigit) else none
  | r => some r

/-- What follows a time of day. Seconds may be left out, and a second may be a
leap second. -/
def time? (cs : List Char) : Option (List Char) := do
  match ← hourMinute? cs with
  | ':' :: r => do
    let (second, r) ← twoDigits? r
    if second ≤ 60 then fraction? r else none
  | r => some r

/-- What follows an offset, if there is one. -/
def offset? : List Char → Option (List Char)
  | 'Z' :: r | 'z' :: r => some r
  | '+' :: r | '-' :: r => hourMinute? r
  | r => some r

def isDatetime (cs : List Char) : Bool :=
  match date? cs with
  | none => time? cs = some []
  | some [] => true
  | some (c :: r) => (c == 'T' || c == 't' || c == ' ') && (time? r).bind offset? = some []

end TupleLogic.Toml
