import HttpdConf.Settings

/-!
# Numbers, dates and truth values in TOML

No setting takes such a value, but a document that holds an ill-formed one is not TOML. The
predicates here decide which words are well formed.

## Main definitions

* `isInteger`, `isFloat`, `isTruth`, `isMoment`
-/

namespace HttpdConf.Toml

/-- Digits of a base with single underscores between them; the digits alone. -/
def groupedDigits? (isDigit : Char → Bool) : List Char → Option (List Char)
  | [] => none
  | [c] => if isDigit c then some [c] else none
  | c :: '_' :: cs =>
    if isDigit c then (groupedDigits? isDigit cs).map (c :: ·) else none
  | c :: cs => if isDigit c then (groupedDigits? isDigit cs).map (c :: ·) else none

/-- The number that digits write in a base. -/
def ofDigits (base : Nat) (digits : List Char) : Nat :=
  digits.foldl (fun n c => base * n + (hexDigit? c).getD 0) 0

/-- Split off a sign; true when it is a minus. -/
def splitSign : List Char → Bool × List Char
  | '-' :: cs => (true, cs)
  | '+' :: cs => (false, cs)
  | cs => (false, cs)

/-- A whole number in base ten without a needless leading zero. -/
def decimal? (cs : List Char) : Option (List Char) :=
  match cs with
  | '0' :: _ :: _ => none
  | _ => groupedDigits? Char.isDigit cs

/-- Whole numbers, in base ten with a sign or in base 16, 8 or 2, of at most 64 bits. -/
def isInteger (cs : List Char) : Bool :=
  let based (base : Nat) (isDigit : Char → Bool) (digits : List Char) : Bool :=
    match groupedDigits? isDigit digits with
    | some digits => ofDigits base digits < Nat.pow 2 63
    | none => false
  match cs with
  | '0' :: 'x' :: digits => based 16 (fun c => (hexDigit? c).isSome) digits
  | '0' :: 'o' :: digits => based 8 (fun c => '0' ≤ c && c ≤ '7') digits
  | '0' :: 'b' :: digits => based 2 (fun c => c == '0' || c == '1') digits
  | _ =>
    let (negative, digits) := splitSign cs
    match decimal? digits with
    | some digits => ofDigits 10 digits < Nat.pow 2 63 + (if negative then 1 else 0)
    | none => false

/-- Whether `mantissa · 10 ^ exponent` is nearer to the first number past the range of double
precision than to any number in it. -/
def overflows (mantissa : Nat) (exponent : Int) : Bool :=
  let size : Int := (Nat.toDigits 10 mantissa).length + exponent
  if mantissa = 0 || size < 308 then false
  else if size > 310 then true
  else
    let bound := Nat.pow 2 1024 - Nat.pow 2 970
    if exponent < 0 then bound * Nat.pow 10 (-exponent).toNat ≤ mantissa
    else bound ≤ mantissa * Nat.pow 10 exponent.toNat

/-- An exponent after its `e`. -/
def exponent? (cs : List Char) : Option Int :=
  let (negative, digits) := splitSign cs
  (groupedDigits? Char.isDigit digits).map fun digits =>
    if negative then -(ofDigits 10 digits : Int) else (ofDigits 10 digits : Int)

/-- Numbers with a fraction or an exponent, and the special ones. A positive number may not
exceed the range of double precision. -/
def isFloat (cs : List Char) : Bool :=
  let (negative, body) := splitSign cs
  if body == ['i', 'n', 'f'] || body == ['n', 'a', 'n'] then true
  else
    let (whole, rest) := body.span fun c => c.isDigit || c == '_'
    let (fraction?, rest) : Option (List Char) × List Char :=
      match rest with
      | '.' :: rest =>
        let (digits, rest) := rest.span fun c => c.isDigit || c == '_'
        (groupedDigits? Char.isDigit digits, rest)
      | _ => (some [], rest)
    let exponent? : Option Int :=
      match rest with
      | [] => if body.contains '.' then some 0 else none
      | e :: digits => if e == 'e' || e == 'E' then exponent? digits else none
    match decimal? whole, fraction?, exponent? with
    | some whole, some fraction, some exponent =>
      negative || !overflows (ofDigits 10 (whole ++ fraction)) (exponent - fraction.length)
    | _, _, _ => false

def isTruth (cs : List Char) : Bool :=
  cs == ['t', 'r', 'u', 'e'] || cs == ['f', 'a', 'l', 's', 'e']

/-- The number of exactly the given digits, if it lies within bounds. -/
def bounded? (low high : Nat) (digits : List Char) : Option Nat :=
  if digits.all Char.isDigit && low ≤ ofDigits 10 digits && ofDigits 10 digits ≤ high then
    some (ofDigits 10 digits)
  else none

def daysInMonth (year month : Nat) : Nat :=
  if month = 2 then
    if year % 4 = 0 && (year % 100 ≠ 0 || year % 400 = 0) then 29 else 28
  else if month = 4 || month = 6 || month = 9 || month = 11 then 30
  else 31

/-- What follows a date of the calendar. -/
def skipDate? : List Char → Option (List Char)
  | y₁ :: y₂ :: y₃ :: y₄ :: '-' :: m₁ :: m₂ :: '-' :: d₁ :: d₂ :: rest => do
    let year ← bounded? 0 9999 [y₁, y₂, y₃, y₄]
    let month ← bounded? 1 12 [m₁, m₂]
    let _ ← bounded? 1 (daysInMonth year month) [d₁, d₂]
    return rest
  | _ => none

/-- What follows the fraction of a second. -/
def skipSecondFraction? : List Char → Option (List Char)
  | '.' :: c :: rest => if c.isDigit then some (rest.dropWhile Char.isDigit) else none
  | ['.'] => none
  | rest => some rest

/-- What follows a time of day. -/
def skipTime? : List Char → Option (List Char)
  | h₁ :: h₂ :: ':' :: m₁ :: m₂ :: ':' :: s₁ :: s₂ :: rest => do
    let _ ← bounded? 0 23 [h₁, h₂]
    let _ ← bounded? 0 59 [m₁, m₂]
    let _ ← bounded? 0 60 [s₁, s₂]
    skipSecondFraction? rest
  | _ => none

/-- Whether the rest of a date and time is a time zone or nothing. -/
def isZone : List Char → Bool
  | [] | ['Z'] | ['z'] => true
  | [sign, h₁, h₂, ':', m₁, m₂] =>
    (sign == '+' || sign == '-') && (bounded? 0 23 [h₁, h₂]).isSome &&
      (bounded? 0 59 [m₁, m₂]).isSome
  | _ => false

/-- A time of day with an optional zone. -/
def isZonedTime (cs : List Char) : Bool :=
  match skipTime? cs with
  | some rest => isZone rest
  | none => false

/-- Dates, times of day, and both joined by `T` or a space. -/
def isMoment (cs : List Char) : Bool :=
  match skipDate? cs with
  | some [] => true
  | some (c :: rest) => (c == 'T' || c == 't' || c == ' ') && isZonedTime rest
  | none => skipTime? cs == some []

/-- Whether a space and a time of day seem to follow a date. -/
def startsTime : List Char → Bool
  | ' ' :: h₁ :: h₂ :: ':' :: _ => h₁.isDigit && h₂.isDigit
  | _ => false

def isWordChar (c : Char) : Bool :=
  c.isAlphanum || c == '+' || c == '-' || c == '_' || c == '.' || c == ':'

/-- The word of a number, date or truth value, and what follows it. A date takes a time after a
space with it. -/
def readWord (cs : List Char) : List Char × List Char :=
  let (word, rest) := cs.span isWordChar
  if skipDate? word == some [] && startsTime rest then
    let (time, rest) := rest.tail.span isWordChar
    (word ++ ' ' :: time, rest)
  else (word, rest)

end HttpdConf.Toml
