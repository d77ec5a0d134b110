/-! Terminal control sequences, and text with them removed: an escape character, `[`, then
characters of `0` to `?`, then characters of the blank to `/`, then one of `@` to `~`. -/
namespace ArrowLang.Text

def isParameter (c : Char) : Bool := '0' ≤ c && c ≤ '?'
def isIntermediate (c : Char) : Bool := ' ' ≤ c && c ≤ '/'
def isFinal (c : Char) : Bool := '@' ≤ c && c ≤ '~'

/-- The text after a control sequence whose `ESC [` is already read, if it is complete. The two
runs need no second try: no character is of two of the three classes. -/
def afterControl (text : List Char) : Option (List Char) :=
  match (text.dropWhile isParameter).dropWhile isIntermediate with
  | [] => none
  | c :: rest => if isFinal c then some rest else none

theorem length_lt_of_afterControl {text rest : List Char} (h : afterControl text = some rest) :
    rest.length < text.length := by
  unfold afterControl at h
  split at h
  · cases h
  · next c r hr =>
    have h₁ := (List.dropWhile_sublist (l := text.dropWhile isParameter) isIntermediate).length_le
    have h₂ := (List.dropWhile_sublist (l := text) isParameter).length_le
    rw [hr] at h₁
    split at h
    · cases h; simp at h₁; omega
    · cases h

/-- The text without its control sequences, removed from left to right. -/
def plainChars : List Char → List Char
  | [] => []
  | '\x1b' :: '[' :: text =>
    match _h : afterControl text with
    | some rest => plainChars rest
    | none => '\x1b' :: plainChars ('[' :: text)
  | c :: text => c :: plainChars text
termination_by text => text.length
decreasing_by
  · have := length_lt_of_afterControl ‹_›; simp; omega
  · simp
  · simp

def plain (text : String) : String := String.ofList (plainChars text.toList)

end ArrowLang.Text
