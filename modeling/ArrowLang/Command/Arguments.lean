import ArrowLang.Files
import ArrowLang.Text.Quoted
import ArrowLang.Text.Similar

/-! The arguments of the command line: options in any order between file names. -/
namespace ArrowLang.Command

inductive Flag where
  | tree | noColor | version | help
  deriving DecidableEq, Repr

def Flag.all : List Flag := [.tree, .noColor, .version, .help]

def Flag.name : Flag → String
  | .tree => "--tree"
  | .noColor => "--no-color"
  | .version => "--version"
  | .help => "--help"

/-- What the user did wrong. -/
inductive UsageError where
  | noSuchOption (name : String) (similar : List String)
  | takesNoValue (flag : Flag)
  | noSuchFile (path : String)
  | isADirectory (path : String)
  | severalFiles
  deriving DecidableEq, Repr

def usage : String := "Usage: main [OPTIONS] [FILES]...\n"

def help : String := usage ++
  "\n  The gwn language front end.\n\n" ++
  "  With no FILE, start an interactive session. With one FILE, parse it and echo\n" ++
  "  every top-level form.\n\n" ++
  "Options:\n" ++
  "  --tree      Echo the AST tree instead of source.\n" ++
  "  --no-color  Disable colored diagnostics.\n" ++
  "  --version   Show the version and exit.\n" ++
  "  --help      Show this message and exit.\n"

def version : String := "gwn, version 0.1.0\n"

namespace UsageError

def suggestion : List String → String
  | [] => ""
  | [name] => " Did you mean " ++ Text.quoted name ++ "?"
  | names => " (Did you mean one of: " ++
      ", ".intercalate ((names.mergeSort fun a b => decide (a ≤ b)).map Text.quoted) ++ "?)"

def reason : UsageError → String
  | .noSuchOption name similar => "No such option " ++ Text.quoted name ++ "." ++ suggestion similar
  | .takesNoValue flag => "Option " ++ Text.quoted flag.name ++ " does not take a value."
  | .noSuchFile path => "Invalid value for '[FILES]...': File " ++ Text.quoted path ++ " does not exist."
  | .isADirectory path => "Invalid value for '[FILES]...': File " ++ Text.quoted path ++ " is a directory."
  | .severalFiles => "expected at most one FILE"

/-- The text of the error. A value where none belongs is told without the usage. -/
def message (e : UsageError) : String :=
  match e with
  | .takesNoValue _ => "Error: " ++ e.reason ++ "\n"
  | _ => usage ++ "Try 'main --help' for help.\n\nError: " ++ e.reason ++ "\n"

end UsageError

/-- The flags in the order in which they were given, and the file names. -/
structure Arguments where
  flags : List Flag
  files : List String
  deriving DecidableEq, Repr

/-- A long option, which may have a value behind an equals sign. -/
def longFlag (text : String) : Except UsageError Flag :=
  let name := String.ofList (text.toList.takeWhile (· ≠ '='))
  match Flag.all.find? (·.name = name) with
  | some flag => if text.contains '=' then .error (.takesNoValue flag) else .ok flag
  | none => .error (.noSuchOption name (Text.similar name (Flag.all.map Flag.name)))

def flag (text : String) : Except UsageError Flag :=
  match text.toList with
  | '-' :: '-' :: _ => longFlag text
  | _ => .error (.noSuchOption (String.ofList (text.toList.take 2)) [])

def isFlag (text : String) : Bool := text.startsWith "-" && text ≠ "-"

/-- Two hyphens alone end the options. -/
def parse : List String → Except UsageError Arguments
  | [] => .ok ⟨[], []⟩
  | text :: rest =>
    if text = "--" then .ok ⟨[], rest⟩
    else if isFlag text then do
      let f ← flag text
      let a ← parse rest
      .ok { a with flags := f :: a.flags }
    else do
      let a ← parse rest
      .ok { a with files := text :: a.files }

/-- What the arguments ask for. -/
inductive Request where
  | version | help
  | session (tree noColor : Bool)
  | file (tree noColor : Bool) (path : String)
  deriving DecidableEq, Repr

/-- Why nothing can be done. -/
inductive Refusal where
  | usage (cause : UsageError)
  /-- A file name that no path can have. -/
  | noPath (name : String)
  deriving DecidableEq, Repr

def checkFile (files : Files) (path : String) : Except Refusal Unit :=
  match files.find path with
  | .ok (.file _) => .ok ()
  | .ok (.directory _) => .error (.usage (.isADirectory path))
  | .error .nullCharacter => .error (.noPath path)
  | .error _ => .error (.usage (.noSuchFile path))

/-- Of `--version` and `--help` the first counts, and neither looks at the files. -/
def Arguments.request (files : Files) (a : Arguments) : Except Refusal Request :=
  match a.flags.find? fun f => f == .version || f == .help with
  | some .version => .ok .version
  | some _ => .ok .help
  | none => do
    a.files.forM (checkFile files)
    let tree := a.flags.contains .tree
    let noColor := a.flags.contains .noColor
    match a.files with
    | [] => .ok (.session tree noColor)
    | [path] => .ok (.file tree noColor path)
    | _ => .error (.usage .severalFiles)

def request (files : Files) (args : List String) : Except Refusal Request := do
  let a ← (parse args).mapError .usage
  a.request files

end ArrowLang.Command
