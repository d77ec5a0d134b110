/-! Sets of code points written as ranges, both ends included. -/
namespace ArrowLang.Text

def inRanges (ranges : List (Nat × Nat)) (n : Nat) : Bool :=
  ranges.any fun r => r.1 ≤ n && n ≤ r.2

@[simp] theorem inRanges_nil (n : Nat) : inRanges [] n = false := rfl
@[simp] theorem inRanges_cons (r : Nat × Nat) (rs : List (Nat × Nat)) (n : Nat) :
    inRanges (r :: rs) n = (decide (r.1 ≤ n) && decide (n ≤ r.2) || inRanges rs n) := rfl

end ArrowLang.Text
