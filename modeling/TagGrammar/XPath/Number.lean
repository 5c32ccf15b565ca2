/-
The numbers of expressions.

A numeral is read as the nearest number of fifty-three significant bits, the even
one of two that are equally near.  A number is displayed as an integer while it is
a small one, and otherwise by the shortest decimal that reads back as the same
number: of two such decimals the nearer, and the greater if both are equally near.
No exponent is ever written.
-/

namespace TagGrammar
namespace XPath

/-- A number that is not negative: `mantissa * 2 ^ exponent`, or infinity.  The
mantissa is below `2 ^ 53`, and below `2 ^ 52` only if the exponent is the least. -/
inductive Number where
  | finite (mantissa : Nat) (exponent : Int)
  | infinite
deriving DecidableEq

namespace Number

/-- The exponent of the numbers closest to zero. -/
def leastExponent : Int := -1074

/-- The exponent of the greatest finite numbers. -/
def greatestExponent : Int := 971

def zero : Number := .finite 0 leastExponent

/-- The bound of the mantissas, `2 ^ 53`. -/
def mantissaBound : Nat := 1 <<< 53

/-- The least mantissa that has fifty-three bits, `2 ^ 52`. -/
def leastFullMantissa : Nat := 1 <<< 52

/-- Two raised to the part of an exponent that is not negative. -/
def powTwo (e : Int) : Nat := 1 <<< e.toNat

/-- Ten raised to the part of an exponent that is not negative. -/
def powTen (e : Int) : Nat := Nat.pow 10 e.toNat

/-- The quotient rounded to the nearest integer, to the even one of two. -/
def roundedQuotient (num den : Nat) : Nat :=
  let q := num / den
  let twice := 2 * (num % den)
  if den < twice || (twice == den && q % 2 == 1) then q + 1 else q

/-- The exponent for which a ratio has fifty-three bits before the point, or the
least exponent. -/
def exponentOf (num den : Nat) : Int :=
  let e := max leastExponent ((num.log2 : Int) - den.log2 - 53)
  if num * powTwo (-e) / (den * powTwo e) < mantissaBound then e else e + 1

/-- The number nearest to a ratio. -/
def ofRatio (num den : Nat) : Number :=
  if num = 0 then zero
  else
    let e := exponentOf num den
    let m := roundedQuotient (num * powTwo (-e)) (den * powTwo e)
    let (m, e) := if m = mantissaBound then (leastFullMantissa, e + 1) else (m, e)
    if greatestExponent < e then .infinite else .finite m e

/-- The natural number written by some decimal digits. -/
def natOfDigits (digits : List Char) : Nat :=
  digits.foldl (fun n c => n * 10 + (c.toNat - '0'.toNat)) 0

/-- The number a numeral stands for: decimal digits, at least one, with at most one
point before, among or after them. -/
def ofNumeral? (cs : List Char) : Option Number :=
  let whole := cs.takeWhile Char.isDigit
  match cs.dropWhile Char.isDigit with
  | [] => if whole.isEmpty then none else some (ofRatio (natOfDigits whole) 1)
  | '.' :: places =>
    if places.all Char.isDigit && !(whole.isEmpty && places.isEmpty) then
      some (ofRatio (natOfDigits (whole ++ places)) (Nat.pow 10 places.length))
    else none
  | _ => none

/-! ## Display -/

/-- The bounds within which a decimal reads back as `m * 2 ^ e`, and the number
itself, in quarters of the unit `2 ^ e`.  Below a power of two the numbers are
twice as dense. -/
def quarters (m : Nat) (e : Int) : Nat × Nat × Nat :=
  let below := if m = leastFullMantissa ∧ leastExponent < e then 1 else 2
  (4 * m - below, 4 * m, 4 * m + 2)

/-- The multiple of `10 ^ k` that reads back as `m * 2 ^ e`, if there is one: of two
the nearer, and the greater of two that are equally near. -/
def onGrid? (m : Nat) (e k : Int) : Option Nat :=
  let (low, mid, high) := quarters m e
  let scale := powTwo (e - 2) * powTen (-k)
  let unit := powTwo (2 - e) * powTen k
  let reads := fun c =>
    if m % 2 == 0 then low * scale ≤ c * unit && c * unit ≤ high * scale
    else low * scale < c * unit && c * unit < high * scale
  let down := mid * scale / unit
  let up := down + 1
  match reads down, reads up with
  | true, true => some (if 2 * (mid * scale % unit) < unit then down else up)
  | true, false => some down
  | false, true => some up
  | false, false => none

/-- The first grid of `10 ^ k`, `10 ^ (k - 1)` and so on that has a decimal which
reads back as `m * 2 ^ e`. -/
def shortestFrom (m : Nat) (e : Int) : Nat → Int → Nat × Int
  | 0, k => (0, k)
  | fuel + 1, k =>
    match onGrid? m e k with
    | some d => (d, k)
    | none => shortestFrom m e fuel (k - 1)

/-- The shortest decimal `d * 10 ^ k` that reads back as `m * 2 ^ e`. -/
def shortest (m : Nat) (e : Int) : Nat × Int := shortestFrom m e 640 309

/-- The digits of `d * 10 ^ k` without an exponent. -/
def positional (d : Nat) (k : Int) : List Char :=
  let digits := Nat.toDigits 10 d
  let places := (-k).toNat
  if 0 ≤ k then digits ++ List.replicate k.toNat '0'
  else if places < digits.length then
    digits.take (digits.length - places) ++ '.' :: digits.drop (digits.length - places)
  else '0' :: '.' :: (List.replicate (places - digits.length) '0' ++ digits)

/-- The integer that a number is, if it is one below `10 ^ 15`. -/
def smallInteger? (m : Nat) (e : Int) : Option Nat :=
  let n := m * powTwo e / powTwo (-e)
  if n * powTwo (-e) = m * powTwo e ∧ n < Nat.pow 10 15 then some n else none

/-- The digits of a number as it is displayed. -/
def digits : Number → List Char
  | infinite => ['i', 'n', 'f']
  | finite m e =>
    match smallInteger? m e with
    | some n => Nat.toDigits 10 n
    | none => let (d, k) := shortest m e; positional d k

def display (n : Number) : String := String.ofList n.digits

end Number
end XPath
end TagGrammar
