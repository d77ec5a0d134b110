/-! The stack that nested calls share. Only the frames of the program's own functions are counted,
and of what these build: calling a class takes one frame besides that of its constructor. -/
namespace ArrowLang

/-- The frames that are left, or `none` where they never run out. -/
abbrev Stack := Option Nat

namespace Stack

/-- Whether calls can nest `n` deep. -/
def holds : Stack → Nat → Bool
  | none, _ => true
  | some k, n => n ≤ k

/-- What is left inside of `n` nested calls. -/
def inside : Stack → Nat → Stack
  | none, _ => none
  | some k, n => some (k - n)

@[simp] theorem holds_none (n : Nat) : holds none n = true := rfl
@[simp] theorem inside_none (n : Nat) : inside none n = none := rfl
@[simp] theorem holds_some (k n : Nat) : holds (some k) n = decide (n ≤ k) := rfl
@[simp] theorem inside_some (k n : Nat) : inside (some k) n = some (k - n) := rfl

@[simp] theorem holds_zero (s : Stack) : s.holds 0 = true := by
  cases s with
  | none => rfl
  | some k => exact decide_eq_true k.zero_le

theorem holds_of_le {s : Stack} {m n : Nat} (h : s.holds n = true) (hm : m ≤ n) :
    s.holds m = true := by
  cases s with
  | none => rfl
  | some k =>
    rw [holds_some, decide_eq_true_eq] at h ⊢
    exact Nat.le_trans hm h

/-- Inside of nested calls there is room for those that go on from there. -/
theorem holds_add {s : Stack} {j : Nat} (hj : s.holds j = true) (n : Nat) :
    s.holds (n + j) = (s.inside j).holds n := by
  cases s with
  | none => rfl
  | some k =>
    rw [holds_some, decide_eq_true_eq] at hj
    rw [inside_some, holds_some, holds_some, decide_eq_decide]
    exact (Nat.le_sub_iff_add_le hj).symm

theorem holds_inside {s : Stack} {n j : Nat} (h : s.holds (n + j) = true) :
    (s.inside j).holds n = true := by
  rw [← holds_add (holds_of_le h (Nat.le_add_left j n)), h]

theorem holds_max (s : Stack) (m n : Nat) : s.holds (max m n) = (s.holds m && s.holds n) := by
  cases s with
  | none => rfl
  | some k => simp only [holds_some, Nat.max_le, Bool.decide_and]

/-- Of the calls that nest at most `n` deep, the second stack holds all that the first one holds. -/
def Covers (n : Nat) (s s' : Stack) : Prop := ∀ m, m ≤ n → s.holds m = true → s'.holds m = true

theorem covers_none (n : Nat) (s : Stack) : Covers n s none := fun _ _ _ => rfl

theorem covers_of_holds {s' : Stack} {n : Nat} (h : s'.holds n = true) (s : Stack) : Covers n s s' :=
  fun _ hm _ => holds_of_le h hm

theorem covers_of_le {k k' : Nat} (h : k ≤ k') (n : Nat) : Covers n (some k) (some k') := by
  intro m _ hm
  rw [holds_some, decide_eq_true_eq] at hm ⊢
  exact Nat.le_trans hm h

theorem Covers.mono {s s' : Stack} {m n : Nat} (h : Covers n s s') (hm : m ≤ n) : Covers m s s' :=
  fun _ hl => h _ (Nat.le_trans hl hm)

/-- Inside of `j` nested calls there is room for `j` fewer. -/
theorem Covers.inside {s s' : Stack} {n j : Nat} (h : Covers (n + j) s s') :
    Covers n (s.inside j) (s'.inside j) := by
  intro m hm hs
  rcases s' with _ | k'
  · rfl
  · have hj := h (m + j) (Nat.add_le_add_right hm j)
    rcases s with _ | k
    · have := hj rfl
      simp only [holds_some, inside_some, decide_eq_true_eq] at this ⊢
      omega
    · simp only [holds_some, inside_some, decide_eq_true_eq] at hj hs ⊢
      omega

end Stack
end ArrowLang
