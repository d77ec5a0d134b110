/-! How similar two words are: how many characters their common pieces have, taken from the longest
piece outwards. -/
namespace ArrowLang.Text

def commonStart : List Char → List Char → Nat
  | a :: as, b :: bs => if a = b then commonStart as bs + 1 else 0
  | _, _ => 0

/-- A common piece: where it begins in each of two words, and its length. -/
structure Common where
  left : Nat
  right : Nat
  length : Nat

def Common.longer (best new : Common) : Common := if new.length > best.length then new else best

/-- The longest common piece, of equally long ones the first in the first word, and of these the
first in the second. -/
def longestCommon (a b : List Char) : Common :=
  (List.range a.length).foldl (fun best i =>
    (List.range b.length).foldl (fun best j =>
      best.longer ⟨i, j, commonStart (a.drop i) (b.drop j)⟩) best) ⟨0, 0, 0⟩

/-- The number of characters in common pieces: the longest, and those on either side of it. -/
def matching : Nat → List Char → List Char → Nat
  | 0, _, _ => 0
  | fuel + 1, a, b =>
    let c := longestCommon a b
    if c.length = 0 then 0
    else matching fuel (a.take c.left) (b.take c.right) + c.length +
      matching fuel (a.drop (c.left + c.length)) (b.drop (c.right + c.length))

/-- A word that is similar enough to be meant: at least six tenths of all characters match. -/
structure Candidate where
  word : String
  matched : Nat
  total : Nat

def Candidate.of (word other : String) : Candidate :=
  let a := word.toList
  let b := other.toList
  ⟨word, matching (a.length + 1) a b, a.length + b.length⟩

def Candidate.isClose (c : Candidate) : Bool := 3 * c.total ≤ 10 * c.matched

/-- Of equally similar words the later in the alphabet comes first. -/
def Candidate.before (c d : Candidate) : Bool :=
  c.matched * d.total > d.matched * c.total ||
    c.matched * d.total = d.matched * c.total && decide (d.word ≤ c.word)

/-- The words most similar to another, three at most, the most similar first. -/
def similar (other : String) (words : List String) : List String :=
  (((words.map (Candidate.of · other)).filter Candidate.isClose).mergeSort Candidate.before
    |>.take 3).map Candidate.word

end ArrowLang.Text
