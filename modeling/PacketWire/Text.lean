/-!
# Numbers in text

Decimal numbers as settings and log directives spell them: an optional sign and digits of
ASCII. A text that is no number of a range gives the first fault from the left.
-/

namespace PacketWire.Text

inductive NumberFault where
  | empty
  | invalidDigit
  | tooLarge
  | tooSmall
  deriving DecidableEq, Repr

def NumberFault.message : NumberFault → String
  | .empty => "cannot parse integer from empty string"
  | .invalidDigit => "invalid digit found in string"
  | .tooLarge => "number too large to fit in target type"
  | .tooSmall => "number too small to fit in target type"

/-- Adds digits to `n` as long as the number stays within `limit`. -/
def addDigits (limit : Nat) (outside : NumberFault) : List Char → Nat → Except NumberFault Nat
  | [], n => .ok n
  | c :: cs, n =>
    if c.isDigit then
      let n := n * 10 + (c.toNat - 48)
      if limit < n then .error outside else addDigits limit outside cs n
    else .error .invalidDigit

/-- Digits without a sign, at least one. -/
def readDigits (limit : Nat) (outside : NumberFault) : List Char → Except NumberFault Nat
  | [] => .error .invalidDigit
  | cs => addDigits limit outside cs 0

def readNat (max : Nat) (text : String) : Except NumberFault Nat :=
  match text.toList with
  | [] => .error .empty
  | '+' :: cs => readDigits max .tooLarge cs
  | cs => readDigits max .tooLarge cs

def readInt32 (text : String) : Except NumberFault Int32 :=
  match text.toList with
  | [] => .error .empty
  | '+' :: cs => (readDigits 2147483647 .tooLarge cs).map fun n => Int32.ofNat n
  | '-' :: cs => (readDigits 2147483648 .tooSmall cs).map fun n => Int32.ofInt (-(n : Int))
  | cs => (readDigits 2147483647 .tooLarge cs).map fun n => Int32.ofNat n

def max32 : Nat := 4294967295

def max64 : Nat := 18446744073709551615

/-- Whether two texts agree but for the case of ASCII letters. -/
def agree (a b : String) : Bool := a.toList.map Char.toLower == b.toList.map Char.toLower

end PacketWire.Text
