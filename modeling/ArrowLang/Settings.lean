import ArrowLang.Files
import ArrowLang.Text.Utf8
import ArrowLang.Toml.Document

/-! The settings of a session, read from the nearest `gwn.toml`. -/
namespace ArrowLang

open Toml (Value Table)

inductive Format where
  | canonical | tree
  deriving DecidableEq, Repr

def Format.name : Format → String
  | .canonical => "canonical"
  | .tree => "tree"

def Format.all : List Format := [.canonical, .tree]

def Format.ofValue? : Value → Option Format
  | .text s => Format.all.find? (·.name = s)
  | _ => none

/-- The prompt and the colour are kept as the file gives them. -/
structure Settings where
  prompt : Value
  color : Value
  format : Format

def Settings.default : Settings := ⟨.text "gwn > ", .bool true, .canonical⟩

inductive SettingsError where
  | notFound
  | unreadable (obstacle : Files.Obstacle) (path : String)
  | notText (content : List UInt8)
  | malformed (fault : Toml.Fault)
  /-- A section is a value of another kind than a table. -/
  | notATable (value : Value)
  | badFormat (path : String) (value : Value)

namespace SettingsError

def message : SettingsError → String
  | .notFound => "No gwn.toml found in any parent directory"
  | .unreadable obstacle path => obstacle.message path
  | .notText content => ((Text.utf8Fault? content).map Text.Utf8Fault.message).getD ""
  | .malformed .malformed => "the file is not TOML"
  | .malformed (.tooManyDigits n) =>
    "Exceeds the limit (" ++ toString Toml.maxIntDigits ++
      " digits) for integer string conversion: value has " ++ toString n ++
      " digits; use sys.set_int_max_str_digits() to increase the limit"
  | .notATable v => "'" ++ v.kindName ++ "' object has no attribute 'get'"
  | .badFormat path v =>
    path ++ ": output.format must be one of " ++ ", ".intercalate (Format.all.map Format.name) ++
      ", got " ++ v.quoted

/-- Whether a session reports the error in its own words. -/
def isReported : SettingsError → Bool
  | .unreadable .nullCharacter _ => true
  | .notText _ => true
  | .malformed _ => true
  | .badFormat .. => true
  | _ => false

end SettingsError

namespace Settings

/-- A value in a section. A missing section is an empty one. -/
def inSection (t : Table) (name key : String) (default : Value) : Except SettingsError Value :=
  match Toml.lookup? name t with
  | none => .ok default
  | some (.table fields) => .ok ((Toml.lookup? key fields).getD default)
  | some v => .error (.notATable v)

def ofTable (path : String) (t : Table) : Except SettingsError Settings := do
  let prompt ← inSection t "repl" "prompt" default.prompt
  let color ← inSection t "diagnostics" "color" default.color
  let format ← inSection t "output" "format" (.text default.format.name)
  match Format.ofValue? format with
  | some format => .ok ⟨prompt, color, format⟩
  | none => .error (.badFormat path format)

/-- The settings that the bytes of a file give; `path` is for messages. -/
def ofContent (path : String) (content : ByteArray) : Except SettingsError Settings :=
  match String.fromUTF8? content with
  | none => .error (.notText content.data.toList)
  | some text => match Toml.read text with
    | .error fault => .error (.malformed fault)
    | .ok t => ofTable path t

def ofEntry (path : String) (t : FileTree) : Except SettingsError Settings :=
  match Files.contentOf t with
  | .error o => .error (.unreadable o path)
  | .ok content => ofContent path content

def load (files : Files) (path : String) : Except SettingsError Settings :=
  let path := normalPath path
  match files.content path with
  | .error o => .error (.unreadable o path)
  | .ok content => ofContent path content

def fileName : String := "gwn.toml"

/-- The places from a directory up to the root, given its names from the innermost on. -/
def upward : List String → List Place
  | [] => [[]]
  | name :: names => (name :: names).reverse :: upward names

/-- Where to look first: the directory of the start, if the start is a file, or else the start
itself. -/
def startOf (files : Files) (place : Place) : Except SettingsError Place :=
  match files.look place with
  | .ok (some (.file _)) => .ok place.dropLast
  | .ok _ => .ok place
  | .error o => .error (.unreadable o place.path)

/-- The first of the directories in which the file stands: its place and what stands there. -/
def firstIn (files : Files) : List Place → Except SettingsError (Place × FileTree)
  | [] => .error .notFound
  | directory :: rest =>
    let place := directory ++ [fileName]
    match files.look place with
    | .ok (some t) => .ok (place, t)
    | .ok none => firstIn files rest
    | .error o => .error (.unreadable o place.path)

/-- Where the search starts: at a path, or in the working directory. -/
def searchStart (files : Files) : Option String → Except SettingsError Place
  | none => .ok files.cwd
  | some path =>
    if path.contains '\x00' then .error (.unreadable .nullCharacter path) else .ok (files.resolve path)

/-- The nearest place of the file and what stands there. -/
def nearest (files : Files) (path : Option String) : Except SettingsError (Place × FileTree) := do
  let place ← searchStart files path
  let directory ← startOf files place
  firstIn files (upward directory.reverse)

def find (files : Files) (path : Option String) : Except SettingsError Place :=
  (nearest files path).map (·.1)

/-- The settings of the nearest file. Without any file the defaults hold. -/
def discover (files : Files) (path : Option String) : Except SettingsError Settings :=
  match nearest files path with
  | .ok (place, t) => ofEntry place.path t
  | .error .notFound => .ok default
  | .error e => .error e

end Settings
end ArrowLang
