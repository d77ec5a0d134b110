import ArrowLang.Command.Arguments
import ArrowLang.Command.Report
import ArrowLang.Settings

/-! A run of the command: its arguments, the files and the standard input give what it writes and how
it ends. -/
namespace ArrowLang.Command

open Text (unifyLineEnds)

/-- What ends a run before its time. -/
inductive Interruption where
  | halt (cause : Halt)
  | settings (cause : SettingsError)
  /-- A source file is not UTF-8. -/
  | notText (content : List UInt8)
  | unreadable (obstacle : Files.Obstacle) (path : String)

def Interruption.message : Interruption → String
  | .halt cause => cause.message
  | .settings cause => cause.message
  | .notText content => ((Text.utf8Fault? content).map Text.Utf8Fault.message).getD ""
  | .unreadable obstacle path => obstacle.message path

structure Result where
  exitCode : Nat
  output : Output
  interruption : Option Interruption

/-- A text as it is read from a stream. -/
def readText (s : String) : String := String.ofList (unifyLineEnds s.toList)

/-- The lines of a text, each with its newline; what stands behind the last newline is a line too,
unless it is empty. -/
def linesOf : List Char → List (List Char)
  | [] => []
  | c :: cs =>
    if c = '\n' then ['\n'] :: linesOf cs
    else match linesOf cs with
      | [] => [[c]]
      | line :: lines => (c :: line) :: lines

/-- Reads lines on their own, with the prompt before each and before the end. -/
def session (stack : Nat) (prompt : String) (style : Report.Style) : List String → Result
  | [] => ⟨0, ⟨prompt ++ echo style.terminal "", ""⟩, none⟩
  | line :: lines => match Report.run stack style line with
    | (.ok _, out) =>
      let o := session stack prompt style lines
      { o with output := ⟨prompt, ""⟩ ++ out ++ o.output }
    | (.error cause, out) => ⟨1, ⟨prompt, ""⟩ ++ out, some (.halt cause)⟩

/-- A prompt as it is written. -/
def promptText (terminal : Bool) (v : Toml.Value) : String :=
  if terminal then v.shown else Text.plain v.shown

def file (stack : Nat) (style : Report.Style) (files : Files) (path : String) : Result :=
  let path := normalPath path
  match files.content path with
  | .error o => ⟨1, .empty, some (.unreadable o path)⟩
  | .ok content => match String.fromUTF8? content with
    | none => ⟨1, .empty, some (.notText content.data.toList)⟩
    | some text => match Report.run stack style (readText text) with
      | (.ok ok, out) => ⟨if ok then 0 else 1, out, none⟩
      | (.error cause, out) => ⟨1, out, some (.halt cause)⟩

def style (terminal tree noColor : Bool) (s : Settings) : Report.Style :=
  ⟨tree || s.format == .tree, !noColor && s.color.isTruthy, terminal⟩

/-- What is left to do once the arguments and the settings are read. -/
inductive Plan where
  | done (result : Result)
  | session (prompt : String) (style : Report.Style)

/-- Goes on with the settings that hold for a path, if they can be read. -/
def withSettings (terminal : Bool) (files : Files) (path : Option String) (go : Settings → Plan) : Plan :=
  match Settings.discover files path with
  | .ok settings => go settings
  | .error e =>
    .done <| if e.isReported then ⟨1, ⟨"", echo terminal ("error: " ++ e.message)⟩, none⟩
      else ⟨1, .empty, some (.settings e)⟩

/-- The plan of a run whose streams are a terminal or not. -/
def plan (stack : Nat) (terminal : Bool) (files : Files) (args : List String) : Plan :=
  match request files args with
  | .error (.usage e) => .done ⟨2, ⟨"", e.message⟩, none⟩
  | .error (.noPath path) => .done ⟨1, .empty, some (.unreadable .nullCharacter path)⟩
  | .ok .version => .done ⟨0, ⟨version, ""⟩, none⟩
  | .ok .help => .done ⟨0, ⟨help, ""⟩, none⟩
  | .ok (.session tree noColor) => withSettings terminal files none fun s =>
    .session (promptText terminal s.prompt) (style terminal tree noColor s)
  | .ok (.file tree noColor path) => withSettings terminal files (some path) fun s =>
    .done (file stack (style terminal tree noColor s) files path)

/-- Runs with so many frames of the stack for each text that is read. -/
def run (stack : Nat) (terminal : Bool) (files : Files) (args : List String) (stdin : String) : Result :=
  match plan stack terminal files args with
  | .done result => result
  | .session prompt style =>
    session stack prompt style ((linesOf (readText stdin).toList).map String.ofList)

end ArrowLang.Command
