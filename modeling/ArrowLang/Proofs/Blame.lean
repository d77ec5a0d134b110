import ArrowLang.Proofs.WellFormed

/-!
# What a failed reading blames

A fault is blamed on a token that was the current one somewhere between the window at which the
reading began and the window at which it failed.
-/
namespace ArrowLang
namespace Window

/-- The token is the current one of a window between two others. -/
def Sees (w v : Window) (t : Token) : Prop := ∃ u, w.Reaches u ∧ u.Reaches v ∧ u.current = t

variable {u v w : Window} {t : Token}

theorem Sees.before (h : w.Reaches u) (hs : u.Sees v t) : w.Sees v t := by
  obtain ⟨x, hux, hxv, ht⟩ := hs
  exact ⟨x, h.trans hux, hxv, ht⟩

theorem Sees.behind (hs : w.Sees u t) (h : u.Reaches v) : w.Sees v t := by
  obtain ⟨x, hwx, hxu, ht⟩ := hs
  exact ⟨x, hwx, hxu.trans h, ht⟩

end Window

namespace Reading

variable {α β : Type}

/-- The reading only moves, and where it fails, it has seen the token that it blames. -/
structure Blames (R : Reading α) : Prop where
  moves : Moves R
  sees : ∀ {w v : Window} {g : GrammarFault} {t : Token},
    R.on none w = (.error (.fault g t), v) → w.Sees v t

theorem Blames.bind {R : Reading α} {f : α → Reading β} (hR : Blames R) (hf : ∀ x, Blames (f x)) :
    Blames (R >>= f) where
  moves := hR.moves.bind fun x => (hf x).moves
  sees h := by
    rcases on_bind_eq_error.mp h with h | ⟨x, u, hx, h⟩
    · exact hR.sees h
    · exact ((hf x).sees h).before (hR.moves.reaches hx)

section
variable {sub : Sub} (hsub : ∀ p, Blames (sub p))
include hsub

end

end Reading
end ArrowLang
