import Stacking.Rounding
import Stacking.Text.Digit

/-!
# Numbers on the command line

Whole numbers and numbers with a fraction and an exponent, in the digits of any script. Blanks may
stand around a number, and single low lines between its digits.
-/

namespace Stacking

/-! ## Parts of numbers -/

/-- A blank that may stand around a number: any but the four separators of fields and records. -/
def isNumberBlank (c : Char) : Bool := isBlank c && !(0x1C ≤ c.toNat && c.toNat ≤ 0x1F)

/-- The text without the blanks around a number. -/
def trimNumber (t : Text) : Text := Text.dropEndWhile isNumberBlank (t.dropWhile isNumberBlank)

/-- Splits a sign off: whether it is a minus, and the rest. -/
def splitSign : Text → Bool × Text
  | '-' :: t => (true, t)
  | '+' :: t => (false, t)
  | t => (false, t)

/-- Splits a text at the first character that satisfies `p`; the second part is `none` if there is
none. -/
def splitWhere (p : Char → Bool) (t : Text) : Text × Option Text :=
  match t.dropWhile (!p ·) with
  | [] => (t, none)
  | _ :: rest => (t.takeWhile (!p ·), some rest)

/-- A number with its sign. -/
def signed (negative : Bool) (n : Nat) : Int := if negative then -(n : Int) else n

/-! ## Whole numbers -/

/-- The most digits that a whole number may have. -/
def maxWholeDigits : Nat := 4300

/-- Reads a whole number. -/
def whole? (written : String) : Option Int :=
  let (negative, t) := splitSign (trimNumber written.toList)
  match digitValues? t with
  | none => none
  | some digits =>
    if maxWholeDigits < digits.length then none else some (signed negative (valueOfDigits digits))

/-! ## Decimal numbers -/

/-- A number without its sign. -/
inductive Magnitude where
  /-- The number `significand · 10 ^ exponent`. -/
  | finite (significand : Nat) (exponent : Int)
  | infinite
  /-- What is not a number. -/
  | undefined
deriving DecidableEq, Repr

/-- A number of the command line that need not be whole. -/
structure Decimal where
  negative : Bool
  magnitude : Magnitude
deriving DecidableEq, Repr

/-- Reads the exponent of a number, which is zero if it is not written. -/
def exponent? : Option Text → Option Int
  | none => some 0
  | some written =>
    let (negative, t) := splitSign written
    (digitValues? t).map fun digits => signed negative (valueOfDigits digits)

/-- Reads digits that may be missing. -/
def optionalDigits? (t : Text) : Option (List Nat) := if t.isEmpty then some [] else digitValues? t

/-- Reads a finite number without its sign: digits before and after the point, not both missing,
and an exponent. -/
def finite? (t : Text) : Option Magnitude := do
  let (mantissa, power) := splitWhere (fun c => c == 'e' || c == 'E') t
  let (front, fraction) := splitWhere (· == '.') mantissa
  let high ← optionalDigits? front
  let low ← optionalDigits? (fraction.getD [])
  let exponent ← exponent? power
  if high.isEmpty && low.isEmpty then none
  else some (.finite (valueOfDigits (high ++ low)) (exponent - low.length))

/-- Reads a number without its sign; infinity and what is not a number have names. -/
def magnitude? (t : Text) : Option Magnitude :=
  match String.ofList (t.map Char.toLower) with
  | "inf" | "infinity" => some .infinite
  | "nan" => some .undefined
  | _ => finite? t

/-- Reads a number. -/
def decimal? (written : String) : Option Decimal :=
  let (negative, t) := splitSign (trimNumber written.toList)
  (magnitude? t).map fun magnitude => ⟨negative, magnitude⟩

/-- The bits of the floating-point number nearest to `significand · 10 ^ exponent`. Powers that are
too great or too small to matter are not computed: from `10 ^ 310` on every number is infinite, and
below `10 ^ -330` every one is zero. -/
def scientificBits (significand : Nat) (exponent : Int) : Nat :=
  if significand = 0 then 0
  else if 310 ≤ exponent then infinityBits
  else if exponent + significand.log2 < -330 then 0
  else nearestBits (significand * Nat.pow 10 exponent.toNat) (Nat.pow 10 (-exponent).toNat)

/-- The bits of the floating-point number nearest to a number without sign. -/
def Magnitude.bits : Magnitude → Nat
  | .finite significand exponent => scientificBits significand exponent
  | .infinite => infinityBits
  | .undefined => undefinedBits

/-- The floating-point number nearest to a number. -/
def Decimal.toFloat (d : Decimal) : Float :=
  let magnitude := Float.ofBits d.magnitude.bits.toUInt64
  if d.negative then -magnitude else magnitude

end Stacking
