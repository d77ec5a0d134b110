import ArrowLang.Text.Quoted

/-! A tree of files below the root directory, and the paths that lead through it. -/
namespace ArrowLang

inductive FileTree where
  | file (content : ByteArray)
  | directory (entries : List (String × FileTree))

instance : Inhabited FileTree := ⟨.directory []⟩

namespace FileTree

def child? (name : String) : FileTree → Option FileTree
  | .file _ => none
  | .directory entries => entries.lookup name

/-- What stands at the end of a path of names. -/
def at? : List String → FileTree → Option FileTree
  | [], t => some t
  | name :: path, t => (t.child? name).bind (at? path)

/-- The tree with an entry changed; the directories that lead to it are made. -/
def change (f : Option FileTree → FileTree) : List String → Option FileTree → FileTree
  | [], t => f t
  | name :: path, t =>
    let entries := match t with
      | some (.directory entries) => entries
      | _ => []
    .directory ((name, change f path (entries.lookup name)) :: entries.filter (·.1 ≠ name))

def putFile (path : List String) (content : ByteArray) (t : FileTree) : FileTree :=
  change (fun _ => .file content) path (some t)

def putDirectory (path : List String) (t : FileTree) : FileTree :=
  change (fun t => t.getD (.directory [])) path (some t)

end FileTree

/-- The parts between slashes. -/
def pathParts (path : String) : List String := (path.toList.splitOn '/').map String.ofList

def isAbsolute (path : String) : Bool := path.startsWith "/"

/-- The slashes at the head of a path. Two have a meaning of their own and stay, more are as good as
one. -/
def rootMark (path : String) : String :=
  match (path.toList.takeWhile (· = '/')).length with
  | 0 => ""
  | 2 => "//"
  | _ => "/"

/-- A path without parts that lead nowhere; a relative one that has no others is a point. -/
def normalPath (path : String) : String :=
  let parts := "/".intercalate ((pathParts path).filter fun part => part ≠ "" && part ≠ ".")
  if isAbsolute path then rootMark path ++ parts else if parts = "" then "." else parts

/-- A place is given by the names that lead to it from the root directory. -/
abbrev Place := List String

namespace Place

/-- Where a part of a path leads. Above the root directory is the root directory. -/
def step (place : Place) (part : String) : Place :=
  if part = "" || part = "." then place
  else if part = ".." then place.dropLast
  else place ++ [part]

/-- The absolute path of a place. -/
def path (place : Place) : String := "/" ++ "/".intercalate place

end Place

/-- The files that a program can see, and the directory that relative paths start from. -/
structure Files where
  tree : FileTree
  cwd : Place

namespace Files

/-- Why a path leads to no file that can be read. -/
inductive Obstacle where
  | missing
  | notADirectory
  | isADirectory
  | nameTooLong
  /-- No path holds the null character. -/
  | nullCharacter
  deriving DecidableEq, Repr

/-- The most bytes of a name, and of a whole path. -/
def maxNameBytes : Nat := 255
def maxPathBytes : Nat := 4095

def start (f : Files) (path : String) : Place := if isAbsolute path then [] else f.cwd

/-- Where a path leads by its parts alone, whether or not anything exists on the way. -/
def resolve (f : Files) (path : String) : Place := (pathParts path).foldl Place.step (f.start path)

/-- Follows parts from a place: each is looked up in a directory. -/
def follow (tree : FileTree) (place : Place) : List String → Except Obstacle FileTree
  | [] => match tree.at? place with
    | none => .error .missing
    | some t => .ok t
  | part :: parts => match tree.at? place with
    | none => .error .missing
    | some (.file _) => .error .notADirectory
    | some (.directory _) =>
      if maxNameBytes < part.utf8ByteSize then .error .nameTooLong
      else follow tree (place.step part) parts

/-- What a path leads to. -/
def find (f : Files) (path : String) : Except Obstacle FileTree :=
  if path.contains '\x00' then .error .nullCharacter
  else if path = "" then .error .missing
  else if maxPathBytes < path.utf8ByteSize then .error .nameTooLong
  else follow f.tree (f.start path) (pathParts path)

/-- What stands at a place, if anything does. -/
def look (f : Files) (place : Place) : Except Obstacle (Option FileTree) :=
  if maxPathBytes < place.path.utf8ByteSize then .error .nameTooLong
  else match follow f.tree [] place with
    | .ok t => .ok (some t)
    | .error .missing => .ok none
    | .error .notADirectory => .ok none
    | .error o => .error o

def contentOf : FileTree → Except Obstacle ByteArray
  | .file content => .ok content
  | .directory _ => .error .isADirectory

/-- The bytes of the file that a path leads to. -/
def content (f : Files) (path : String) : Except Obstacle ByteArray := (f.find path).bind contentOf

def Obstacle.message (path : String) : Obstacle → String
  | .missing => "[Errno 2] No such file or directory: " ++ Text.quoted path
  | .notADirectory => "[Errno 20] Not a directory: " ++ Text.quoted path
  | .isADirectory => "[Errno 21] Is a directory: " ++ Text.quoted path
  | .nameTooLong => "[Errno 36] File name too long: " ++ Text.quoted path
  | .nullCharacter => "embedded null byte"

end Files
end ArrowLang
