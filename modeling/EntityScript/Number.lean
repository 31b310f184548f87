import EntityScript.Decimal.Shortest
import EntityScript.Text.Blank
import EntityScript.Text.Lowercase

/-!
Numbers as they stand in script text. A numeral is a sign, digits with an optional point among
them, and an optional power of ten; reading takes the longest numeral a text starts with. Writing
prints whole numbers below a thousand million without a point and all others with the fewest digits
that read back, never with a power of ten.
-/

namespace EntityScript

structure PowerPart where
  marker : Char
  sign : Option Char
  digits : List Char
deriving DecidableEq, Repr

structure Numeral where
  sign : Option Char
  whole : List Char
  /-- The digits after the point, if there is a point. -/
  fraction : Option (List Char)
  power : Option PowerPart
deriving DecidableEq, Repr

def PowerPart.text (p : PowerPart) : List Char :=
  p.marker :: p.sign.toList ++ p.digits

namespace Numeral

def takeSign : List Char → Option Char × List Char
  | '+' :: rest => (some '+', rest)
  | '-' :: rest => (some '-', rest)
  | cs => (none, cs)

/-- The power part at the start of the text; it needs digits. -/
def takePower : List Char → Option PowerPart
  | [] => none
  | c :: rest =>
    if c = 'e' ∨ c = 'E' then
      let (sign, rest) := takeSign rest
      let digits := rest.takeWhile Char.isDigit
      if digits.isEmpty then none else some ⟨c, sign, digits⟩
    else none

/-- The point and the digits after it, if the text starts with a point; and what follows. -/
def takeFraction : List Char → Option (List Char) × List Char
  | '.' :: rest => (some (rest.takeWhile Char.isDigit), rest.dropWhile Char.isDigit)
  | cs => (none, cs)

/-- The longest numeral the text starts with. It has a digit before its power part. -/
def read? (cs : List Char) : Option Numeral :=
  let (sign, cs) := takeSign cs
  let whole := cs.takeWhile Char.isDigit
  let (fraction, cs) := takeFraction (cs.dropWhile Char.isDigit)
  if whole.isEmpty && (fraction.getD []).isEmpty then none
  else some ⟨sign, whole, fraction, takePower cs⟩

def text (n : Numeral) : List Char :=
  n.sign.toList ++ n.whole
    ++ (match n.fraction with
      | some digits => '.' :: digits
      | none => [])
    ++ (n.power.map PowerPart.text).getD []

def exponent (n : Numeral) : Int :=
  match n.power with
  | none => 0
  | some p =>
    let size : Int := Nat.ofDigitChars 10 p.digits 0
    if p.sign = some '-' then -size else size

def value (n : Numeral) : Float32 :=
  let fraction := n.fraction.getD []
  Binary32.ofDecimal (n.sign = some '-') (Nat.ofDigitChars 10 (n.whole ++ fraction) 0)
    (n.exponent - fraction.length)

end Numeral

namespace Number

/-- The number that the text starts with, after white space; 0 if it starts with none. -/
def parse (s : String) : Float32 :=
  match Numeral.read? (Text.trimStart s.toList) with
  | some n => n.value
  | none => 0

/-- The words that stand for numbers without being numerals. -/
def isSpecialWord (cs : List Char) : Bool :=
  let name := Text.asciiLowercase (String.ofList (Numeral.takeSign cs).2)
  name == "inf" || name == "infinity" || name == "nan"

def isNumberWord (s : String) : Bool :=
  isSpecialWord s.toList
    || match Numeral.read? s.toList with
      | some n => n.text == s.toList
      | none => false

def parseUnsigned? (s : String) : Option Nat :=
  let digits :=
    match s.toList with
    | '+' :: rest => rest
    | cs => cs
  let n := Nat.ofDigitChars 10 digits 0
  if !digits.isEmpty && digits.all Char.isDigit && n < UInt64.size then some n else none

def isSmallWhole (mantissa : Nat) (exponent : Int) : Bool :=
  mantissa % Binary32.pow2 (-exponent) == 0
    && mantissa * Binary32.pow2 exponent < Binary32.pow10 9 * Binary32.pow2 (-exponent)

/-- The number in script text. Negative zero loses its sign. -/
def format (x : Float32) : String :=
  match Binary32.read x with
  | .nan => "NaN"
  | .infinite negative => if negative then "-inf" else "inf"
  | .finite negative mantissa exponent =>
    if isSmallWhole mantissa exponent then toString (Binary32.toInt64 x)
    else
      let text := (Decimal.shortest mantissa exponent).positional
      if negative then "-" ++ text else text

end Number

end EntityScript
