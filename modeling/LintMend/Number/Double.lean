/-!
# Binary floating-point numbers

The numbers of the 64-bit binary format as exact values, the nearest one to a decimal, and the
shortest decimal that names one.
-/

namespace LintMend

/-- A number of the 64-bit binary format. A finite one is `mantissa * 2 ^ exponent`. -/
inductive Double where
  | finite (negative : Bool) (mantissa : Nat) (exponent : Int)
  | infinite (negative : Bool)
  | nan
deriving DecidableEq, Repr

namespace Double

/-- A quotient rounded to the nearest integer, a half to the even one. -/
def roundDiv (num den : Nat) : Nat :=
  let q := num / den
  let r := num % den
  if 2 * r < den then q else if den < 2 * r then q + 1 else if q % 2 == 0 then q else q + 1

/-- A quotient divided by a power of two. -/
def scaled (num den : Nat) (power : Int) : Nat × Nat :=
  match power with
  | .ofNat k => (num, den * Nat.pow 2 k)
  | .negSucc k => (num * Nat.pow 2 (k + 1), den)

/-- The exponent at which a positive quotient has a mantissa of 53 bits, but not below the least
exponent of the format. -/
def exponentFor (num den : Nat) : Int :=
  let guess : Int := (num.log2 : Int) - (den.log2 : Int) - 52
  let (n, d) := scaled num den guess
  let exact :=
    if n < d * Nat.pow 2 52 then guess - 1
    else if d * Nat.pow 2 53 ≤ n then guess + 1
    else guess
  max exact (-1074)

/-- The nearest number to a quotient, with the sign given. -/
def ofQuotient (negative : Bool) (num den : Nat) : Double :=
  if num = 0 then .finite negative 0 0
  else
    let power := exponentFor num den
    let (n, d) := scaled num den power
    let m := roundDiv n d
    let (m, power) := if m = Nat.pow 2 53 then (Nat.pow 2 52, power + 1) else (m, power)
    if m = 0 then .finite negative 0 0
    else if 971 < power then .infinite negative
    else .finite negative m power

/-- Number of decimal digits. -/
def digitCount (n : Nat) : Nat := (Nat.toDigits 10 n).length

/-- The nearest number to `digits * 10 ^ exponent`. Beyond the range of the format there is nothing
to compute. -/
def ofDecimal (negative : Bool) (digits : Nat) (exponent : Int) : Double :=
  if digits = 0 then .finite negative 0 0
  else if 400 < exponent + digitCount digits then .infinite negative
  else if exponent + digitCount digits < -400 then .finite negative 0 0
  else
    match exponent with
    | .ofNat k => ofQuotient negative (digits * Nat.pow 10 k) 1
    | .negSucc k => ofQuotient negative digits (Nat.pow 10 (k + 1))

/-- The value without its sign as a quotient. -/
def quotient (mantissa : Nat) (exponent : Int) : Nat × Nat :=
  match exponent with
  | .ofNat k => (mantissa * Nat.pow 2 k, 1)
  | .negSucc k => (mantissa, Nat.pow 2 (k + 1))

/-- The multiple of `10 ^ power` nearest to a quotient among the two around it that round to the
number `x`, as a factor of `10 ^ power`. Of two equally near ones it is the greater. -/
def onGrid? (x : Double) (num den : Nat) (power : Int) : Option Nat :=
  let (n, d) :=
    match power with
    | .ofNat k => (num, den * Nat.pow 10 k)
    | .negSucc k => (num * Nat.pow 10 (k + 1), den)
  let low := n / d
  let high := low + 1
  let nearest := if n - low * d < high * d - n then [low, high] else [high, low]
  nearest.find? fun k => k ≠ 0 && ofDecimal false k power == x

/-- The shortest decimal of a finite number: digits and a power of ten. -/
def shortest (mantissa : Nat) (exponent : Int) : Nat × Int :=
  let (num, den) := quotient mantissa exponent
  let x := ofQuotient false num den
  -- the power of ten of the first digit, or one more
  let below : Nat := if num < den then digitCount (den / num) else 0
  let top : Int := (digitCount (num / den) : Int) - (below : Int)
  let found := (List.range 20).findSome? fun (k : Nat) =>
    let power := top - k
    (onGrid? x num den power).map fun digits => (digits, power)
  found.getD (0, 0)

/-- The digits of a decimal written out in full, without an exponent. -/
def positional (digits : Nat) (power : Int) : String :=
  let ds := Nat.toDigits 10 digits
  match power with
  | .ofNat k => String.ofList (ds ++ List.replicate k '0')
  | .negSucc k =>
    let places := k + 1
    let padded := List.replicate (places + 1 - ds.length) '0' ++ ds
    let cut := padded.length - places
    String.ofList (padded.take cut ++ '.' :: padded.drop cut)

/-- The number as settings write it: in full, and with a point. -/
def render : Double → String
  | .nan => "nan"
  | .infinite negative => if negative then "-inf" else "inf"
  | .finite negative mantissa exponent =>
    let sign := if negative then "-" else ""
    if mantissa = 0 then sign ++ "0.0"
    else
      let (digits, power) := shortest mantissa exponent
      let text := positional digits power
      sign ++ text ++ (if text.toList.contains '.' then "" else ".0")

end Double

end LintMend
