import ArrowLang.Command.Run

/-! The command: `main [OPTIONS] [FILES]...`. -/
namespace ArrowLang

/-- Adds what stands at a place of the file system, if anything does. -/
def addEntry (tree : FileTree) (place : Place) : IO FileTree := do
  try
    let path ← IO.FS.realPath place.path
    if ← path.isDir then return tree.putDirectory place
    return tree.putFile place (← IO.FS.readBinFile path)
  catch _ => return tree

/-- The part of the file system that a run can look at: what stands on the ways along the paths, and
the settings on the ways up from their ends. -/
def snapshot (paths : List String) : IO Files := do
  let cwd := (pathParts (← IO.currentDir).toString).filter (· ≠ "")
  let files : Files := ⟨(FileTree.directory []).putDirectory cwd, cwd⟩
  let mut tree := files.tree
  for path in "." :: paths do
    let mut place := files.start path
    for part in pathParts path do
      place := place.step part
      tree ← addEntry tree place
    for directory in Settings.upward place.reverse do
      tree ← addEntry tree (directory ++ [Settings.fileName])
  return { files with tree }

def write (out : Output) : IO Unit := do
  (← IO.getStdout).putStr out.stdout
  (← IO.getStdout).flush
  (← IO.getStderr).putStr out.stderr

def finish (o : Command.Result) : IO UInt32 := do
  write o.output
  match o.interruption with
  | some i => write ⟨"", i.message ++ "\n"⟩
  | none => pure ()
  return UInt32.ofNat o.exitCode

/-- Reads and answers one line after the other. -/
partial def interact (stack : Nat) (prompt : String) (style : Report.Style) : IO UInt32 := do
  write ⟨prompt, ""⟩
  let line ← (← IO.getStdin).getLine
  if line.isEmpty then
    write ⟨echo style.terminal "", ""⟩
    return 0
  match Report.run stack style (Command.readText line) with
  | (.ok _, out) =>
    write out
    interact stack prompt style
  | (.error cause, out) => finish ⟨1, out, some (.halt cause)⟩

/-- What a stack of a thousand frames leaves for a text, and for the declarations in it, below the
frames of the command. -/
def stackFrames : Nat := 970

end ArrowLang

open ArrowLang in
def main (args : List String) : IO UInt32 := do
  let files ← snapshot args
  match Command.plan stackFrames (← (← IO.getStdout).isTty) files args with
  | .done result => finish result
  | .session prompt style => interact stackFrames prompt style
