import ArrowLang.Text.Quoted

/-! Where bytes stop being UTF-8, and why. -/
namespace ArrowLang.Text

inductive Utf8Reason where
  | startByte | continuationByte | endOfData
  deriving DecidableEq, Repr

/-- The first bytes that are not UTF-8. -/
structure Utf8Fault where
  position : Nat
  bytes : List UInt8
  reason : Utf8Reason
  deriving DecidableEq, Repr

/-- How many bytes follow a first byte, if it can be one. -/
def followers? (b : UInt8) : Option Nat :=
  if b < 0x80 then some 0
  else if b < 0xC2 then none
  else if b < 0xE0 then some 1
  else if b < 0xF0 then some 2
  else if b < 0xF5 then some 3
  else none

def isFollower (b : UInt8) : Bool := 0x80 ≤ b && b < 0xC0

/-- Whether a byte may stand second: it gives no longer form than is needed, no surrogate and nothing
beyond the last code point. -/
def isSecond (first b : UInt8) : Bool :=
  isFollower b && !(first = 0xE0 && b < 0xA0) && !(first = 0xED && 0xA0 ≤ b) &&
    !(first = 0xF0 && b < 0x90) && !(first = 0xF4 && 0x90 ≤ b)

/-- The reason why fewer than `n` followers stand at the head of the bytes, and how many do. -/
def missingFollower? (ok : UInt8 → Bool) : Nat → List UInt8 → Option (Utf8Reason × Nat)
  | 0, _ => none
  | _ + 1, [] => some (.endOfData, 0)
  | n + 1, b :: bs =>
    if ok b then (missingFollower? isFollower n bs).map fun (reason, count) => (reason, count + 1)
    else some (.continuationByte, 0)

/-- The fault of the bytes from a position on; `skip` of them belong to a character before. -/
def utf8FaultFrom? : (position skip : Nat) → List UInt8 → Option Utf8Fault
  | _, _, [] => none
  | position, skip + 1, _ :: bs => utf8FaultFrom? (position + 1) skip bs
  | position, 0, b :: bs =>
    match followers? b with
    | none => some ⟨position, [b], .startByte⟩
    | some n => match missingFollower? (isSecond b) n bs with
      | some (reason, count) => some ⟨position, b :: bs.take count, reason⟩
      | none => utf8FaultFrom? (position + 1) n bs

def utf8Fault? (bytes : List UInt8) : Option Utf8Fault := utf8FaultFrom? 0 0 bytes

def Utf8Reason.text : Utf8Reason → String
  | .startByte => "invalid start byte"
  | .continuationByte => "invalid continuation byte"
  | .endOfData => "unexpected end of data"

def Utf8Fault.message (f : Utf8Fault) : String :=
  "'utf-8' codec can't decode " ++ (match f.bytes with
    | [b] => "byte 0x" ++ String.ofList (hexDigits 2 b.toNat) ++ " in position " ++ toString f.position
    | bytes => "bytes in position " ++ toString f.position ++ "-" ++
        toString (f.position + bytes.length - 1)) ++ ": " ++ f.reason.text

end ArrowLang.Text
