import ArrowLang.Stack
import ArrowLang.Token.Lexeme

/-! A cursor in a text, which cuts one token at a time, and the run of all of them. A lexical
error leaves the cursor behind what it could not read, and so does a cut for whose token or error
the stack has no room. -/
namespace ArrowLang

inductive LexicalFault where
  | unrecognizedCharacter (text : String)
  | unrecognizedEscape (text : String)
  | unterminatedString
  /-- A fault with words of its own. -/
  | general (message : String)
  deriving DecidableEq, Repr

structure LexicalError where
  fault : LexicalFault
  line : Nat
  col : Nat
  deriving DecidableEq, Repr

/-- `start` is where the last token began, `current` what was read, both in characters. -/
structure Cursor where
  start : Nat
  current : Nat
  line : Nat
  col : Nat
  rest : List Char
  deriving DecidableEq, Repr

namespace Cursor

def ofText (text : String) : Cursor := ⟨0, 0, 1, 0, text.toList⟩

def skipGap (s : Cursor) : Cursor :=
  let (gap, rest) := Lexeme.splitGap false s.rest
  let current := s.current + gap.length
  ⟨current, current, s.line, s.col + gap.length, rest⟩

/-- The cursor behind a lexeme of `n` characters on one line. -/
def skip (s : Cursor) (n : Nat) : Cursor :=
  ⟨s.start, s.current + n, s.line, s.col + n, s.rest.drop n⟩

def skipNewlines (s : Cursor) (n : Nat) : Cursor :=
  ⟨s.start, s.current + n, s.line + n, 0, s.rest.drop n⟩

/-- Cuts the string whose opening quote is read and whose rest is `cs`. -/
def quoted (s : Cursor) (cs : List Char) : Except LexicalError Token × Cursor :=
  let (body, rest) := Lexeme.splitQuoted cs
  let (line, col) := Lexeme.endOfQuoted body (s.line, s.col + 1)
  match rest with
  | [] => (.error ⟨.unterminatedString, line, col⟩, ⟨s.start, s.current + 1 + body.length, line, col, []⟩)
  | _ :: rest =>
    let s' : Cursor := ⟨s.start, s.current + body.length + 2, line, col + 1, rest⟩
    match Lexeme.badEscape? body (s.line, s.col + 1) with
    | some (c, line, col) => (.error ⟨.unrecognizedEscape c.toString, line, col⟩, s')
    | none => (.ok ⟨.string, String.ofList (Lexeme.unescape body), s'.line, s'.col⟩, s')

/-- Cuts the token that begins at the cursor. -/
def token (s : Cursor) : Except LexicalError Token × Cursor :=
  match s.rest with
  | [] => (.ok ⟨.endOfText, "", s.line, s.col⟩, s)
  | c :: cs =>
    if c = '"' then s.quoted cs
    else match Lexeme.tail? c cs with
      | some (kind, tail) =>
        let n := tail.length + 1
        let s' := if kind = .newline then s.skipNewlines n else s.skip n
        (.ok ⟨kind, String.ofList (c :: tail), s'.line, s'.col⟩, s')
      | none =>
        let s' := s.skip 1
        (.error ⟨.unrecognizedCharacter c.toString, s'.line, s'.col⟩, s')

/-- The next token or error, and the cursor behind it. -/
def next (s : Cursor) : Except LexicalError Token × Cursor := s.skipGap.token

/-- The cursor where the next token or error cannot be built. A quoted string stops behind its first
escape that means nothing, since the error for it is built there. -/
def broken (s : Cursor) : Cursor :=
  let g := s.skipGap
  match g.rest with
  | '"' :: cs => match Lexeme.badPart? (Lexeme.splitQuoted cs).1 with
    | some part =>
      let (line, col) := Lexeme.endOfQuoted part (g.line, g.col + 1)
      ⟨g.start, g.current + 1 + part.length, line, col, cs.drop part.length⟩
    | none => s.next.2
  | _ => s.next.2

end Cursor

/-- One cut of the cursor. -/
abbrev Outcome := Except LexicalError Token

namespace Outcome

def isEnd : Outcome → Bool
  | .ok t => t.kind = .endOfText
  | .error _ => false

/-- The frames of a cut: the scan, a routine of its own for numbers, words, strings and newlines,
the making of the token, and the call of its class and constructor; for an error its class, its
constructor and the one that all diagnostics share. -/
def frames : Outcome → Nat
  | .ok t => match t.kind with
    | .number | .string | .identifier | .newline => 5
    | .andWord | .orWord | .notWord | .trueWord | .falseWord => 5
    | _ => 4
  | .error e => match e.fault with
    | .unrecognizedCharacter _ => 4
    | _ => 5

end Outcome

/-- The frames of a scan up to the first look at what is there: the scan, the skipping of the gap,
and the look. -/
def scanFrames : Nat := 3

namespace Cursor

theorem length_rest_skipGap (s : Cursor) : s.skipGap.rest.length ≤ s.rest.length := by
  have h := congrArg List.length (Lexeme.splitGap_append false s.rest)
  simp only [List.length_append] at h
  simp only [skipGap]
  omega

theorem length_rest_quoted (s : Cursor) (cs : List Char) :
    (s.quoted cs).2.rest.length ≤ cs.length := by
  have h := congrArg List.length (Lexeme.splitQuoted_append cs)
  simp only [List.length_append] at h
  simp only [quoted]
  split
  · simp
  · next hr =>
    rw [hr] at h
    split <;> simp_all <;> omega

theorem length_rest_token_of_ne (s : Cursor) (h : s.rest ≠ []) :
    s.token.2.rest.length < s.rest.length := by
  unfold token
  split
  · next hr => exact absurd hr h
  · next c cs hr =>
    rw [hr]
    split
    · have := length_rest_quoted s cs
      simp
      omega
    · split
      · split <;> simp only [skip, skipNewlines, hr, List.length_drop, List.length_cons] <;> omega
      · simp [skip, hr]

/-- Every cut but the last one consumes something. -/
theorem length_rest_token (s : Cursor) (h : Outcome.isEnd s.token.1 = false) :
    s.token.2.rest.length < s.rest.length := by
  refine length_rest_token_of_ne s fun hr => ?_
  simp [token, hr, Outcome.isEnd] at h

theorem length_rest_next (s : Cursor) (h : Outcome.isEnd s.next.1 = false) :
    s.next.2.rest.length < s.rest.length :=
  Nat.lt_of_lt_of_le (length_rest_token s.skipGap h) (length_rest_skipGap s)

/-- All cuts up to the end of the text, with the cursor behind each. -/
def cuts (s : Cursor) : List (Outcome × Cursor) :=
  if _h : Outcome.isEnd s.next.1 = false then s.next :: s.next.2.cuts else [s.next]
termination_by s.rest.length
decreasing_by exact length_rest_next s ‹_›

def outcomes (s : Cursor) : List Outcome := s.cuts.map (·.1)

/-- The cuts up to the first error, or to the end of the text: the tokens, and that error. -/
def tokens (s : Cursor) : List Token × Option LexicalError :=
  collect s.outcomes
where
  collect : List Outcome → List Token × Option LexicalError
    | [] => ([], none)
    | .error e :: _ => ([], some e)
    | .ok t :: rest => let (ts, e) := collect rest; (t :: ts, e)

end Cursor
end ArrowLang
