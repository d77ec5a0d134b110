import ArrowLang.Diagnostic.Fault
import ArrowLang.Tree.Expr

/-! The window of two tokens through which expressions are read, and the readings that move it. Each
of them runs on the stack that its caller leaves to it, and fails where that runs out. -/
namespace ArrowLang

/-- `cursor` stands behind the current token. -/
structure Window where
  previous : Token
  current : Token
  cursor : Cursor
  diagnostics : Array Diagnostic

/-- What ends a reading of the whole text. -/
inductive Abort where
  /-- A number has more digits than can be converted. -/
  | tooManyDigits (digits : Nat)
  /-- A token that joins nothing was taken for an operator. -/
  | notAnOperator
  deriving DecidableEq, Repr

/-- The most digits that a number may have. -/
def maxDigits : Nat := 4300

def Abort.message : Abort → String
  | .tooManyDigits n =>
    "Exceeds the limit (" ++ toString maxDigits ++ " digits) for integer string conversion: value has " ++
      toString n ++ " digits; use sys.set_int_max_str_digits() to increase the limit"
  | .notAnOperator => "'NoneType' object is not callable"

inductive Failure where
  | fault (fault : GrammarFault) (token : Token)
  /-- The stack has run out; a token or error that the scan had passed, but that was not built any
  more, is lost. -/
  | tooDeep (lost : Option Outcome)
  | abort (cause : Abort)

namespace Window

/-- The window before the first token of a text. -/
def ofText (text : String) : Window := ⟨.absent, .absent, Cursor.ofText text, #[]⟩

def report (w : Window) (d : Diagnostic) : Window :=
  { w with diagnostics := w.diagnostics.push d }

/-- How many characters are left, and one more unless the end of the text is there. -/
def remaining (w : Window) : Nat :=
  if w.current.kind = .endOfText then 0 else w.cursor.rest.length + 1

/-- Brings the next token into the window. The lexical errors before it are reported. -/
def pull (stack : Stack) (previous current : Token) (s : Cursor) (ds : Array Diagnostic) :
    Except Failure Unit × Window :=
  if stack.holds scanFrames then
    match _h : s.next with
    | (o, v) =>
      if stack.holds (Outcome.frames o) then
        match o with
        | .ok t => (.ok (), ⟨previous, t, v, ds⟩)
        | .error e => pull stack previous current v (ds.push (.ofLexical e))
      else (.error (.tooDeep (some o)), ⟨previous, current, s.broken, ds⟩)
  else (.error (.tooDeep none), ⟨previous, current, s, ds⟩)
termination_by s.rest.length
decreasing_by
  have := Cursor.length_rest_next s (by rw [_h]; rfl)
  rwa [_h] at this

/-- Moves by one token; the end of the text is moved over but never left. -/
def move (stack : Stack) (w : Window) : Except Failure Unit × Window :=
  if w.current.kind = .endOfText then (.ok (), { w with previous := w.current })
  else pull stack w.current w.current w.cursor w.diagnostics

/-- The move with a stack that does not run out. -/
def advance (w : Window) : Window := (w.move none).2

theorem remaining_pull {stack : Stack} {p c : Token} {s : Cursor} {ds : Array Diagnostic} {w : Window}
    (h : pull stack p c s ds = (.ok (), w)) : w.remaining < s.rest.length + 1 := by
  fun_induction pull stack p c s ds with
  | case1 s ds _ t v hn _ =>
    simp only [Prod.mk.injEq, true_and] at h
    subst h
    unfold remaining
    dsimp only
    split
    · omega
    · next hk =>
      have := Cursor.length_rest_next s (by rw [hn]; simpa [Outcome.isEnd] using hk)
      rw [hn] at this
      dsimp only at this
      omega
  | case2 s ds _ v e _ hn _ ih =>
    have := Cursor.length_rest_next s (by rw [hn]; rfl)
    rw [hn] at this
    have := ih h
    dsimp only at *
    omega
  | case3 => simp at h
  | case4 => simp at h

theorem remaining_move {stack : Stack} {w v : Window} (hc : w.current.kind ≠ .endOfText)
    (h : w.move stack = (.ok (), v)) : v.remaining < w.remaining := by
  rw [move, if_neg hc] at h
  have hw : w.remaining = w.cursor.rest.length + 1 := if_neg hc
  rw [hw]
  exact remaining_pull h

theorem pull_none (p c : Token) (s : Cursor) (ds : Array Diagnostic) :
    (pull none p c s ds).1 = .ok () := by
  fun_induction pull none p c s ds <;> simp_all

theorem move_none (w : Window) : w.move none = (.ok (), w.advance) := by
  refine Prod.ext ?_ rfl
  rw [move]
  split
  · rfl
  · exact pull_none ..

theorem remaining_advance {w : Window} (hc : w.current.kind ≠ .endOfText) :
    w.advance.remaining < w.remaining :=
  remaining_move hc (move_none w)

/-- Moves over newlines, each move two calls deep. -/
def passNewlines (stack : Stack) (w : Window) : Except Failure Unit × Window :=
  if _hc : w.current.kind = .newline then
    let moved := w.move (stack.inside 2)
    if _h : moved.1.isOk then moved.2.passNewlines stack else moved
  else (.ok (), w)
termination_by w.remaining
decreasing_by
  have hm : w.move (stack.inside 2) = (.ok (), moved.2) := by
    refine Prod.ext ?_ rfl
    cases hr : (w.move (stack.inside 2)).1 with
    | ok => rfl
    | error => simp [moved, hr, Except.isOk, Except.toBool] at _h
  exact remaining_move (by rw [_hc]; decide) hm

/-- Moves over newlines with a stack that does not run out. -/
def skipNewlines (w : Window) : Window := (w.passNewlines none).2

/-- Moves to the end of the line, or of the text. -/
def skipLine (w : Window) : Window :=
  if _h : w.current.kind ≠ .newline ∧ w.current.kind ≠ .endOfText then w.advance.skipLine else w
termination_by w.remaining
decreasing_by exact remaining_advance _h.2

end Window

/-- A reading moves the window and gives a result or fails; a failure leaves the window where it
arose. -/
abbrev Reading := ReaderT Stack (ExceptT Failure (StateM Window))

namespace Reading

variable {α : Type}

/-- Goes on if calls can nest `n` deep. -/
def need (n : Nat) : Reading Unit := do
  if (← read).holds n then return () else throw (.tooDeep none)

/-- The call of a function, which takes a frame. -/
def call (R : Reading α) : Reading α := do
  need 1
  withReader (·.inside 1) R

/-- A step of the window as a reading. -/
def step (f : Stack → Window → Except Failure Unit × Window) : Reading Unit :=
  fun stack => f stack

def advance : Reading Unit := call (step fun stack w => w.move stack)
def skipNewlines : Reading Unit := call (step fun stack w => w.passNewlines stack)
def previous : Reading Token := return (← get).previous
def current : Reading Token := return (← get).current
def check (kind : TokenKind) : Reading Bool := return (← get).current.kind == kind

/-- Moves on if the current token is of the kind, and tells whether it is. -/
def accept (kind : TokenKind) : Reading Bool := call do
  if ← check kind then
    advance
    return true
  else return false

def expect (kind : TokenKind) (message : String) : Reading Token := call do
  if ← accept kind then previous
  else throw (.fault (.expectedToken kind message) (← current))

/-- More than the number of tokens left, a bound for a loop that moves at each turn. -/
def bound : Reading Nat := return (← get).remaining + 1

end Reading
end ArrowLang
