import TupleLogic.Toml.Strings

/-! Numbers of TOML documents. A number is told by its spelling, and only then
asked for its value: it may be spelled well and be too large to have one. -/

namespace TupleLogic.Toml

/-- Digits without the underscores between them. -/
def digits? (p : Char → Bool) : List Char → Option (List Char)
  | [] => none
  | [c] => if p c then some [c] else none
  | c :: '_' :: r => if p c then (digits? p r).map (c :: ·) else none
  | c :: r => if p c then (digits? p r).map (c :: ·) else none

def isOctal (c : Char) : Bool := '0' ≤ c ∧ c ≤ '7'

def isBinary (c : Char) : Bool := c == '0' || c == '1'

/-- Decimal digits without a leading zero. -/
def wholeDigits? (cs : List Char) : Option (List Char) :=
  match digits? Text.isDigit cs with
  | some ('0' :: _ :: _) => none
  | ds => ds

def unsigned (cs : List Char) : List Char :=
  match cs with
  | '+' :: r | '-' :: r => r
  | r => r

/-- An integer as it is spelled. -/
inductive IntegerText where
  | value (n : Int)
  /-- The mark of a base with no digit after it. -/
  | noDigits
  deriving DecidableEq, Repr

/-- An integer in a base other than ten, after the mark of the base. -/
def basedInteger? (base : Nat) (p : Char → Bool) (cs : List Char) : Option IntegerText :=
  if cs.isEmpty then some .noDigits
  else (digits? p cs).map fun ds => .value (valueIn base ds)

def integer? (cs : List Char) : Option IntegerText :=
  match cs with
  | '0' :: 'x' :: r => basedInteger? 16 isHex r
  | '0' :: 'o' :: r => basedInteger? 8 isOctal r
  | '0' :: 'b' :: r => basedInteger? 2 isBinary r
  | '-' :: r => (wholeDigits? r).map fun ds => .value (-(valueIn 10 ds : Int))
  | '+' :: r => (wholeDigits? r).map fun ds => .value (valueIn 10 ds)
  | r => (wholeDigits? r).map fun ds => .value (valueIn 10 ds)

/-- Whether an integer fits into 128 bits, with or without a sign. -/
def fits128 (n : Int) : Bool :=
  decide (-170141183460469231731687303715884105728 ≤ n) &&
    decide (n < 340282366920938463463374607431768211456)

/-- What stands before the first character of a kind, and what after it. -/
def cutAt (p : Char → Bool) (cs : List Char) : List Char × Option (List Char) :=
  match cs.dropWhile fun c => !p c with
  | [] => (cs, none)
  | _ :: r => (cs.takeWhile fun c => !p c, some r)

/-- The absolute value of a float as it is spelled. -/
inductive FloatText where
  /-- An infinity, or no number. -/
  | special
  /-- `digits` times the power of ten. -/
  | decimal (digits : Nat) (exponent : Int)
  deriving DecidableEq, Repr

def exponent? (cs : List Char) : Option Int :=
  (digits? Text.isDigit (unsigned cs)).map fun ds =>
    if cs.head? = some '-' then -(valueIn 10 ds : Int) else (valueIn 10 ds : Int)

/-- A number with a fraction or an exponent, or one of the special ones. -/
def float? (cs : List Char) : Option FloatText :=
  let body := unsigned cs
  if body = "inf".toList || body = "nan".toList then some .special
  else
    let (mantissa, power) := cutAt (fun c => c == 'e' || c == 'E') body
    let (whole, fraction) := cutAt (· == '.') mantissa
    if fraction.isNone && power.isNone then none
    else do
      let whole ← wholeDigits? whole
      let fraction ← match fraction with
        | none => some []
        | some ds => digits? Text.isDigit ds
      let power ← match power with
        | none => some 0
        | some ds => exponent? ds
      return .decimal (valueIn 10 (whole ++ fraction)) (power - fraction.length)

/-- Halfway from the largest double to the next power of two; from here on a
number is rounded to infinity. -/
def floatLimit : Nat := (Nat.pow 2 54 - 1) * Nat.pow 2 970

/-- Whether a number is finite as a double. The number of digits before the
point decides all but those of the limit's own order of magnitude, so that
large exponents are never raised to. -/
def FloatText.isFinite : FloatText → Bool
  | .special => true
  | .decimal digits exponent =>
    let magnitude : Int := (Nat.toDigits 10 digits).length + exponent
    if digits = 0 || magnitude < 309 then true
    else if 309 < magnitude then false
    else decide (digits * Nat.pow 10 exponent.toNat < floatLimit * Nat.pow 10 (-exponent).toNat)

end TupleLogic.Toml
