import ArrowLang.Decimal.Numeral
import ArrowLang.Toml.Quoting
import ArrowLang.Toml.Value

/-! The numbers, dates and times of a configuration file. -/
namespace ArrowLang.Toml

-- powers of naturals as they are here, whatever else is imported
attribute [local instance (2000)] instPowNat

open Decimal (Binary64)

/-- Digits after a first one, which single underscores may separate. -/
def moreDigits (isDigit : Char → Bool) : List Char → List Char × List Char
  | '_' :: d :: cs =>
    if isDigit d then
      let (ds, rest) := moreDigits isDigit cs
      (d :: ds, rest)
    else ([], '_' :: d :: cs)
  | d :: cs =>
    if isDigit d then
      let (ds, rest) := moreDigits isDigit cs
      (d :: ds, rest)
    else ([], d :: cs)
  | [] => ([], [])

/-- At least one digit. -/
def digits? (isDigit : Char → Bool) : List Char → Option (List Char × List Char)
  | d :: cs =>
    if isDigit d then
      let (ds, rest) := moreDigits isDigit cs
      some (d :: ds, rest)
    else none
  | [] => none

def isDigitBelow (base : Nat) (c : Char) : Bool := (hexValue? c).any (· < base)

def baseOf? : Char → Option Nat
  | 'x' => some 16
  | 'o' => some 8
  | 'b' => some 2
  | _ => none

def valueInBase (base : Nat) (ds : List Char) : Nat :=
  ds.foldl (fun n d => base * n + (hexValue? d).getD 0) 0

/-- An integer that names its base, such as `0xff`. -/
def basedInt? : List Char → Option (Value × List Char)
  | '0' :: b :: cs => do
    let base ← baseOf? b
    let (ds, rest) ← digits? (isDigitBelow base) cs
    some (.int (valueInBase base ds), rest)
  | _ => none

/-- The digits before the point: no zero stands before others. -/
def wholeDigits? : List Char → Option (List Char × List Char)
  | '0' :: cs => some (['0'], cs)
  | cs => digits? Char.isDigit cs

/-- A point with digits behind it. -/
def fractionDigits : List Char → Option (List Char) × List Char
  | '.' :: cs => match digits? Char.isDigit cs with
    | some (ds, rest) => (some ds, rest)
    | none => (none, '.' :: cs)
  | cs => (none, cs)

/-- An exponent with an optional sign. -/
def exponentDigits : List Char → Option Int × List Char
  | c :: cs =>
    let (negative, ds) := Decimal.splitSign cs
    match if c = 'e' || c = 'E' then digits? Char.isDigit ds else none with
    | some (ds, rest) =>
      let n : Int := Decimal.digitsValue ds
      (some (if negative then -n else n), rest)
    | none => (none, c :: cs)
  | [] => (none, [])

/-- The most digits that an integer may have. -/
def maxIntDigits : Nat := 4300

/-- A decimal integer, or a float if there is a point or an exponent. -/
def decimalNumber (cs : List Char) : Except Fault (Value × List Char) :=
  let (negative, body) := Decimal.splitSign cs
  match wholeDigits? body with
  | none => .error .malformed
  | some (whole, rest) =>
    let (fraction, rest) := fractionDigits rest
    let (exponent, rest) := exponentDigits rest
    if fraction.isNone && exponent.isNone then
      if whole.length > maxIntDigits then .error (.tooManyDigits whole.length)
      else
        let n : Int := Decimal.digitsValue whole
        .ok (.int (if negative then -n else n), rest)
    else .ok (.float (Decimal.ofParts negative whole (fraction.getD []) (exponent.getD 0)), rest)

/-- The names of the infinities and of `nan`, with an optional sign. -/
def namedFloat? (cs : List Char) : Option (Value × List Char) :=
  match Decimal.splitSign cs with
  | (negative, 'i' :: 'n' :: 'f' :: rest) => some (.float (.infinite negative), rest)
  | (_, 'n' :: 'a' :: 'n' :: rest) => some (.float .nan, rest)
  | _ => none

/-- The number that the first `width` characters make, if they are digits and it is in the range. -/
def fixedDigits? (width low high : Nat) (cs : List Char) : Option (Nat × List Char) :=
  let ds := cs.take width
  let n := Decimal.digitsValue ds
  if ds.length = width && ds.all Char.isDigit && low ≤ n && n ≤ high then some (n, cs.drop width)
  else none

def expect? (c : Char) : List Char → Option (List Char)
  | d :: cs => if d = c then some cs else none
  | [] => none

def date? (cs : List Char) : Option (Date × List Char) := do
  let (year, cs) ← fixedDigits? 4 0 9999 cs
  let (month, cs) ← fixedDigits? 2 1 12 (← expect? '-' cs)
  let (day, cs) ← fixedDigits? 2 1 31 (← expect? '-' cs)
  some (⟨year, month, day⟩, cs)

/-- Millionths of a second: six digits count, and further ones are skipped. -/
def fraction : List Char → Nat × List Char
  | '.' :: cs =>
    let ds := cs.takeWhile Char.isDigit
    if ds.isEmpty then (0, '.' :: cs)
    else
      let six := ds.take 6
      (Decimal.digitsValue six * 10 ^ (6 - six.length), cs.dropWhile Char.isDigit)
  | cs => (0, cs)

def time? (cs : List Char) : Option (Time × List Char) := do
  let (hour, cs) ← fixedDigits? 2 0 23 cs
  let (minute, cs) ← fixedDigits? 2 0 59 (← expect? ':' cs)
  let (second, cs) ← fixedDigits? 2 0 59 (← expect? ':' cs)
  let (micro, cs) := fraction cs
  some (⟨hour, minute, second, micro⟩, cs)

/-- Minutes ahead of universal time. -/
def offset? : List Char → Option (Int × List Char)
  | [] => none
  | c :: cs =>
    if c = 'Z' || c = 'z' then some (0, cs)
    else if c = '+' || c = '-' then do
      let (hours, cs) ← fixedDigits? 2 0 23 cs
      let (minutes, cs) ← fixedDigits? 2 0 59 (← expect? ':' cs)
      let n : Int := hours * 60 + minutes
      some (if c = '-' then -n else n, cs)
    else none

def isLeap (year : Nat) : Bool := year % 4 = 0 && (year % 100 ≠ 0 || year % 400 = 0)

def daysIn (year month : Nat) : Nat :=
  if month = 2 then if isLeap year then 29 else 28
  else if month = 4 || month = 6 || month = 9 || month = 11 then 30
  else 31

def Date.isReal (d : Date) : Bool := 1 ≤ d.year && d.day ≤ daysIn d.year d.month

/-- A time behind a date, after a `T` or a blank. -/
def timeAfterDate? : List Char → Option (Time × List Char)
  | c :: cs => if c = 'T' || c = 't' || c = ' ' then time? cs else none
  | [] => none

def dated? (cs : List Char) : Option (Except Fault (Value × List Char)) := do
  let (d, rest) ← date? cs
  if !d.isReal then some (.error .malformed)
  else match timeAfterDate? rest with
    | none => some (.ok (.date d, rest))
    | some (t, rest) => match offset? rest with
      | some (offset, rest) => some (.ok (.moment d t (some offset), rest))
      | none => some (.ok (.moment d t none, rest))

/-- A date, a time or a number. -/
def scalar (cs : List Char) : Except Fault (Value × List Char) :=
  match dated? cs with
  | some r => r
  | none => match (time? cs).map fun (t, rest) => (Value.time t, rest) with
    | some r => .ok r
    | none => match (basedInt? cs).or (namedFloat? cs) with
      | some r => .ok r
      | none => decimalNumber cs

end ArrowLang.Toml
