import ArrowLang.Tree.Literal

/-! The values of a configuration file, and how messages show them. -/
namespace ArrowLang.Toml

open Decimal (Binary64)

structure Date where
  year : Nat
  month : Nat
  day : Nat
  deriving DecidableEq, Repr

structure Time where
  hour : Nat
  minute : Nat
  second : Nat
  micro : Nat
  deriving DecidableEq, Repr

inductive Value where
  | text (value : String)
  | int (value : Int)
  | float (value : Binary64)
  | bool (value : Bool)
  | date (date : Date)
  | time (time : Time)
  /-- A date with a time, and how many minutes it is ahead of universal time if that is known. -/
  | moment (date : Date) (time : Time) (offset : Option Int)
  | array (items : List Value)
  | table (fields : List (String × Value))

instance : Inhabited Value := ⟨.bool false⟩

/-- Keys with their values, in the order in which they were first given. -/
abbrev Table := List (String × Value)

def pad (width n : Nat) : String :=
  let ds := Decimal.natDigits n
  String.ofList (List.replicate (width - ds.length) '0' ++ ds)

def natText (n : Nat) : String := String.ofList (Decimal.natDigits n)

def Date.text (d : Date) : String := pad 4 d.year ++ "-" ++ pad 2 d.month ++ "-" ++ pad 2 d.day

def Time.text (t : Time) : String :=
  pad 2 t.hour ++ ":" ++ pad 2 t.minute ++ ":" ++ pad 2 t.second ++
    (if t.micro = 0 then "" else "." ++ pad 6 t.micro)

def offsetText (minutes : Int) : String :=
  (if minutes < 0 then "-" else "+") ++ pad 2 (minutes.natAbs / 60) ++ ":" ++ pad 2 (minutes.natAbs % 60)

def Date.parts (d : Date) : List Nat := [d.year, d.month, d.day]

/-- Seconds are left out if they are zero, and millionths of them too. -/
def Time.parts (t : Time) : List Nat :=
  if t.micro ≠ 0 then [t.hour, t.minute, t.second, t.micro]
  else if t.second ≠ 0 then [t.hour, t.minute, t.second]
  else [t.hour, t.minute]

def call (name : String) (arguments : List String) : String :=
  name ++ "(" ++ ", ".intercalate arguments ++ ")"

def zoneText (minutes : Int) : String :=
  if minutes = 0 then "datetime.timezone.utc"
  else
    let seconds := "seconds=" ++ intText (minutes * 60 % 86400)
    call "datetime.timezone"
      [call "datetime.timedelta" (if minutes < 0 then ["days=-1", seconds] else [seconds])]

namespace Value

def kindName : Value → String
  | .text _ => "str"
  | .int _ => "int"
  | .float _ => "float"
  | .bool _ => "bool"
  | .date _ => "datetime.date"
  | .time _ => "datetime.time"
  | .moment .. => "datetime.datetime"
  | .array _ => "list"
  | .table _ => "dict"

mutual

/-- A value as messages show it, with strings in quotes. -/
def quoted : Value → String
  | .text s => Text.quoted s
  | .int n => intText n
  | .float v => v.text
  | .bool b => boolName b
  | .date d => call "datetime.date" (d.parts.map natText)
  | .time t => call "datetime.time" (t.parts.map natText)
  | .moment d t offset =>
    call "datetime.datetime" ((d.parts ++ t.parts).map natText ++
      (offset.map fun m => "tzinfo=" ++ zoneText m).toList)
  | .array items => "[" ++ ", ".intercalate (quotedItems items) ++ "]"
  | .table fields => "\x7b" ++ ", ".intercalate (quotedFields fields) ++ "\x7d"

def quotedItems : List Value → List String
  | [] => []
  | v :: vs => v.quoted :: quotedItems vs

def quotedFields : List (String × Value) → List String
  | [] => []
  | (k, v) :: fields => (Text.quoted k ++ ": " ++ v.quoted) :: quotedFields fields

end

/-- A value as a prompt shows it: strings as they are. -/
def shown : Value → String
  | .text s => s
  | .date d => d.text
  | .time t => t.text
  | .moment d t offset => d.text ++ " " ++ t.text ++ (offset.map offsetText).getD ""
  | v => v.quoted

/-- Whether a value counts as a yes: all but false, zero and what is empty. -/
def isTruthy : Value → Bool
  | .text s => s != ""
  | .int n => n != 0
  | .float v => !v.sameNumber (.zero false)
  | .bool b => b
  | .array items => !items.isEmpty
  | .table fields => !fields.isEmpty
  | _ => true

end Value
end ArrowLang.Toml
