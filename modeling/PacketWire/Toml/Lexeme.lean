/-!
# Lexemes of Toml

Readers for the smallest parts of a document: blanks, comments, line ends, strings, keys and
the words that stand for numbers, moments and truth values. Each takes characters and gives
what it read with the characters left.
-/

namespace PacketWire.Toml

def isBlank (c : Char) : Bool := c == ' ' || c == '\t'

/-- Characters that may stand as they are: all but the control characters, and the tab. -/
def isPlain (c : Char) : Bool := c == '\t' || (32 ≤ c.toNat && c.toNat ≠ 127)

def skipBlanks (cs : List Char) : List Char := cs.dropWhile isBlank

def newline? : List Char → Option (List Char)
  | '\n' :: cs => some cs
  | '\r' :: '\n' :: cs => some cs
  | _ => none

def skipComment : List Char → List Char
  | '#' :: cs => cs.dropWhile isPlain
  | cs => cs

/-- What may follow on a line: blanks, a comment, and the line's end or that of the text. -/
def lineEnd? (cs : List Char) : Option (List Char) :=
  match skipComment (skipBlanks cs) with
  | [] => some []
  | cs => newline? cs

def skipLines : List Char → List Char
  | ' ' :: cs => skipLines cs
  | '\t' :: cs => skipLines cs
  | '\n' :: cs => skipLines cs
  | '\r' :: '\n' :: cs => skipLines cs
  | cs => cs

def skipFiller : Nat → List Char → List Char
  | 0, cs => cs
  | fuel + 1, cs =>
    match skipLines cs with
    | '#' :: cs => skipFiller fuel (skipComment ('#' :: cs))
    | cs => cs

/-! ## Strings -/

def hexDigit? (c : Char) : Option Nat :=
  let n := c.toNat
  if 48 ≤ n ∧ n ≤ 57 then some (n - 48)
  else if 97 ≤ n ∧ n ≤ 102 then some (n - 87)
  else if 65 ≤ n ∧ n ≤ 70 then some (n - 55)
  else none

/-- The character whose code point is written in hexadecimal. -/
def codePoint? (digits : List Char) : Option Char := do
  let n ← digits.foldlM (fun n c => do return n * 16 + (← hexDigit? c)) 0
  if h : n.isValidChar then some (Char.ofNatAux n h) else none

def escape? : List Char → Option (Char × List Char)
  | 'b' :: cs => some ('\x08', cs)
  | 't' :: cs => some ('\t', cs)
  | 'n' :: cs => some ('\n', cs)
  | 'f' :: cs => some ('\x0c', cs)
  | 'r' :: cs => some ('\r', cs)
  | '"' :: cs => some ('"', cs)
  | '\\' :: cs => some ('\\', cs)
  | 'u' :: cs => if cs.length < 4 then none else (codePoint? (cs.take 4)).map (·, cs.drop 4)
  | 'U' :: cs => if cs.length < 8 then none else (codePoint? (cs.take 8)).map (·, cs.drop 8)
  | _ => none

def ofReversed (cs : List Char) : String := String.ofList cs.reverse

/-- The rest of a string in double quotes. -/
def basicString : Nat → List Char → List Char → Option (String × List Char)
  | 0, _, _ => none
  | _ + 1, _, [] => none
  | _ + 1, acc, '"' :: cs => some (ofReversed acc, cs)
  | fuel + 1, acc, '\\' :: cs => do
    let (c, cs) ← escape? cs
    basicString fuel (c :: acc) cs
  | fuel + 1, acc, c :: cs => if isPlain c then basicString fuel (c :: acc) cs else none

/-- The rest of a string in single quotes. -/
def literalString : List Char → List Char → Option (String × List Char)
  | _, [] => none
  | acc, '\'' :: cs => some (ofReversed acc, cs)
  | acc, c :: cs => if isPlain c then literalString (c :: acc) cs else none

/-- Drops a line break after an opening quote. -/
def skipFirstBreak (cs : List Char) : List Char := (newline? cs).getD cs

/-- The rest of a string of several lines. A backslash at the end of a line joins it with the next
text. -/
def basicLines : Nat → List Char → List Char → Option (String × List Char)
  | 0, _, _ => none
  | fuel + 1, acc, cs =>
    match cs with
    | '"' :: '"' :: '"' :: '"' :: '"' :: cs => some (ofReversed ('"' :: '"' :: acc), cs)
    | '"' :: '"' :: '"' :: '"' :: cs => some (ofReversed ('"' :: acc), cs)
    | '"' :: '"' :: '"' :: cs => some (ofReversed acc, cs)
    | '\\' :: cs =>
      match newline? (skipBlanks cs) with
      | some cs => basicLines fuel acc (skipLines cs)
      | none => do
        let (c, cs) ← escape? cs
        basicLines fuel (c :: acc) cs
    | '\r' :: '\n' :: cs => basicLines fuel ('\n' :: acc) cs
    | c :: cs => if isPlain c || c == '\n' then basicLines fuel (c :: acc) cs else none
    | [] => none

/-- The rest of a string of several lines in single quotes. -/
def literalLines : Nat → List Char → List Char → Option (String × List Char)
  | 0, _, _ => none
  | fuel + 1, acc, cs =>
    match cs with
    | '\'' :: '\'' :: '\'' :: '\'' :: '\'' :: cs => some (ofReversed ('\'' :: '\'' :: acc), cs)
    | '\'' :: '\'' :: '\'' :: '\'' :: cs => some (ofReversed ('\'' :: acc), cs)
    | '\'' :: '\'' :: '\'' :: cs => some (ofReversed acc, cs)
    | '\r' :: '\n' :: cs => literalLines fuel ('\n' :: acc) cs
    | c :: cs => if isPlain c || c == '\n' then literalLines fuel (c :: acc) cs else none
    | [] => none

def shortString? : List Char → Option (String × List Char)
  | '"' :: cs => basicString (cs.length + 1) [] cs
  | '\'' :: cs => literalString [] cs
  | _ => none

def string? : List Char → Option (String × List Char)
  | '"' :: '"' :: '"' :: cs => basicLines (cs.length + 1) [] (skipFirstBreak cs)
  | '\'' :: '\'' :: '\'' :: cs => literalLines (cs.length + 1) [] (skipFirstBreak cs)
  | cs => shortString? cs

/-! ## Keys -/

def isBareKey (c : Char) : Bool := c.isAlphanum || c == '-' || c == '_'

def simpleKey? (cs : List Char) : Option (String × List Char) :=
  match cs with
  | '"' :: _ => shortString? cs
  | '\'' :: _ => shortString? cs
  | _ =>
    match cs.takeWhile isBareKey with
    | [] => none
    | word => some (String.ofList word, cs.dropWhile isBareKey)

def maxKeyParts : Nat := 79

/-- A dotted key. Blanks may stand around the dots and after it. -/
def dottedKey? : Nat → List Char → Option (List String × List Char)
  | 0, _ => none
  | fuel + 1, cs => do
    let (part, cs) ← simpleKey? (skipBlanks cs)
    match skipBlanks cs with
    | '.' :: cs =>
      let (parts, cs) ← dottedKey? fuel cs
      return (part :: parts, cs)
    | cs => return ([part], cs)

def key? (cs : List Char) : Option (List String × List Char) := dottedKey? maxKeyParts cs

/-! ## Words -/

/-- Digits in `base`, with single underscores between them. -/
def digits? (base : Nat) : List Char → Option Nat → Option Nat
  | [], acc => acc
  | c :: cs, acc =>
    match c, acc, cs with
    | '_', some n, d :: _ =>
      if d == '_' then none else digits? base cs (some n)
    | _, _, _ =>
      match hexDigit? c with
      | none => none
      | some d => if d < base then digits? base cs (some (acc.getD 0 * base + d)) else none

/-- A decimal number without sign and without leading zeros. -/
def decimal? (cs : List Char) : Option Nat :=
  match cs with
  | '0' :: _ :: _ => none
  | _ => digits? 10 cs none

def unsigned? (cs : List Char) : Option Nat :=
  match cs with
  | '0' :: 'x' :: cs => digits? 16 cs none
  | '0' :: 'o' :: cs => digits? 8 cs none
  | '0' :: 'b' :: cs => digits? 2 cs none
  | _ => decimal? cs

def maxInteger : Int := 9223372036854775807

def inRange (n : Int) : Option Int :=
  if -maxInteger - 1 ≤ n ∧ n ≤ maxInteger then some n else none

def integer? (cs : List Char) : Option Int :=
  match cs with
  | '+' :: cs => (decimal? cs).bind fun n => inRange n
  | '-' :: cs => (decimal? cs).bind fun n => inRange (-n)
  | _ => (unsigned? cs).bind fun n => inRange n

def isExponentMark (c : Char) : Bool := c == 'e' || c == 'E'

def exponent? (cs : List Char) : Option Int :=
  match cs with
  | '+' :: cs => (digits? 10 cs none).map Int.ofNat
  | '-' :: cs => (digits? 10 cs none).map fun n => -Int.ofNat n
  | _ => (digits? 10 cs none).map Int.ofNat

/-- A word that is a number with a fraction or an exponent: a natural number and the power of ten
beside it. -/
def scientific? (cs : List Char) : Option (Nat × Int) := do
  let mantissa := cs.takeWhile fun c => !isExponentMark c
  let exponent := cs.dropWhile fun c => !isExponentMark c
  let n ← decimal? (mantissa.takeWhile (· != '.'))
  let e ← match exponent with
    | [] => some 0
    | _ :: cs => exponent? cs
  match mantissa.dropWhile (· != '.') with
  | [] => if exponent.isEmpty then none else some (n, e)
  | _ :: fraction =>
    let f ← digits? 10 fraction none
    let places := (fraction.filter (· != '_')).length
    some (n * Nat.pow 10 places + f, e - places)

/-- The least number that is nearer to `2 ^ 1024` than to any smaller double. -/
def doubleLimit : Nat := 1 <<< 1024 - 1 <<< 970

/-- Whether `n` times `10 ^ e` is less than what a double can hold. -/
def fitsDouble (n : Nat) (e : Int) : Bool :=
  let top := (Nat.toDigits 10 n).length + e
  if n = 0 ∨ top < 300 then true
  else if 400 < top then false
  else n * Nat.pow 10 e.toNat < doubleLimit * Nat.pow 10 (-e).toNat

def isSpecialFloat (cs : List Char) : Bool := cs == "inf".toList || cs == "nan".toList

def isFloat (cs : List Char) : Bool :=
  let fits (cs : List Char) := (scientific? cs).any fun (n, e) => fitsDouble n e
  match cs with
  | '-' :: cs => isSpecialFloat cs || (scientific? cs).isSome
  | '+' :: cs => isSpecialFloat cs || fits cs
  | cs => isSpecialFloat cs || fits cs

/-! ## Moments -/

/-- A number of exactly `n` digits from `lo` to `hi`. -/
def fixedNumber (n lo hi : Nat) (cs : List Char) : Option (Nat × List Char) :=
  let ds := cs.take n
  if ds.length = n ∧ ds.all Char.isDigit then
    let v := ds.foldl (fun v c => v * 10 + (c.toNat - 48)) 0
    if lo ≤ v ∧ v ≤ hi then some (v, cs.drop n) else none
  else none

def literal? (c : Char) : List Char → Option (List Char)
  | d :: cs => if c = d then some cs else none
  | [] => none

def daysOf (year month : Nat) : Nat :=
  if month = 2 then
    if year % 4 = 0 ∧ (year % 100 ≠ 0 ∨ year % 400 = 0) then 29 else 28
  else if month = 4 ∨ month = 6 ∨ month = 9 ∨ month = 11 then 30
  else 31

/-- The characters after a date. -/
def date? (cs : List Char) : Option (List Char) := do
  let (year, cs) ← fixedNumber 4 0 9999 cs
  let cs ← literal? '-' cs
  let (month, cs) ← fixedNumber 2 1 12 cs
  let cs ← literal? '-' cs
  let (_, cs) ← fixedNumber 2 1 (daysOf year month) cs
  return cs

/-- The characters after a time of day. -/
def time? (cs : List Char) : Option (List Char) := do
  let (_, cs) ← fixedNumber 2 0 23 cs
  let cs ← literal? ':' cs
  let (_, cs) ← fixedNumber 2 0 59 cs
  let cs ← literal? ':' cs
  let (_, cs) ← fixedNumber 2 0 60 cs
  match cs with
  | '.' :: d :: cs => if d.isDigit then return cs.dropWhile Char.isDigit else none
  | cs => return cs

def isOffset (cs : List Char) : Bool :=
  match cs with
  | [] => true
  | [c] => c == 'Z' || c == 'z'
  | sign :: cs =>
    (sign == '+' || sign == '-') &&
      match (do
        let (_, cs) ← fixedNumber 2 0 23 cs
        let cs ← literal? ':' cs
        let (_, cs) ← fixedNumber 2 0 59 cs
        return cs : Option (List Char)) with
      | some [] => true
      | _ => false

/-- Whether a word is a date, a time of day, or both with an offset or without. -/
def isMoment (cs : List Char) : Bool :=
  match date? cs with
  | some [] => true
  | some (c :: rest) =>
    (c == 'T' || c == 't' || c == ' ') &&
      match time? rest with
      | some rest => isOffset rest
      | none => false
  | none => time? cs == some []

def isWordChar (c : Char) : Bool :=
  c.isAlphanum || c == '+' || c == '-' || c == '_' || c == '.' || c == ':'

/-- The word at the start. A date takes a time of day after one blank along. -/
def word (cs : List Char) : List Char × List Char :=
  let first := cs.takeWhile isWordChar
  let rest := cs.dropWhile isWordChar
  match date? first, rest with
  | some [], ' ' :: d :: more =>
    if d.isDigit then
      let second := (d :: more).takeWhile isWordChar
      if isMoment (first ++ ' ' :: second) then
        (first ++ ' ' :: second, (d :: more).dropWhile isWordChar)
      else (first, rest)
    else (first, rest)
  | _, _ => (first, rest)

end PacketWire.Toml
