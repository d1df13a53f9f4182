import Mathlib.Logic.Function.Basic
import Mathlib.Tactic

/-!
# Copying a block backwards

`mirror f lo top a n` moves the `n` cells that end at `top` to `lo`, the last one first, and changes
each by `f` on the way. The two ranges may overlap.
-/

namespace CDbK8s.Lib.MirrorCopy

open Function

universe u

variable {α : Type u} (f : α → α) (lo top : Nat)

/-- One round: the cell `top - i` goes to `lo + i`. -/
def mirrorStep (a : Nat → α) (i : Nat) : Nat → α := update a (lo + i) (f (a (top - i)))

/-- The first `n` rounds. -/
def mirror (a : Nat → α) (n : Nat) : Nat → α := (List.range n).foldl (mirrorStep f lo top) a

variable {f lo top} {a : Nat → α}

theorem mirror_succ (n : Nat) :
    mirror f lo top a (n + 1) = mirrorStep f lo top (mirror f lo top a n) n := by
  rw [mirror, List.range_succ, List.foldl_append]
  rfl

theorem mirror_outside {n idx : Nat} (h : idx < lo ∨ lo + n ≤ idx) :
    mirror f lo top a n idx = a idx := by
  induction n with
  | zero => rfl
  | succ n ih =>
    have hne : idx ≠ lo + n := by omega
    rw [mirror_succ, mirrorStep, update_of_ne hne]
    exact ih (by omega)

theorem mirror_keeps {n m i : Nat} (hi : i < n) (hnm : n ≤ m) :
    mirror f lo top a m (lo + i) = mirror f lo top a n (lo + i) := by
  induction m, hnm using Nat.le_induction with
  | base => rfl
  | succ m _ ih =>
    have hne : lo + i ≠ lo + m := by omega
    rw [mirror_succ, mirrorStep, update_of_ne hne, ih]

theorem mirror_round (i : Nat) :
    mirror f lo top a (i + 1) (lo + i) = f (mirror f lo top a i (top - i)) := by
  simp [mirror_succ, mirrorStep]

/-- What the target range holds in the end, where it starts early enough: a cell that was
overwritten before it was read has the value of the cell on the other side of the middle. -/
theorem mirror_at {n i : Nat} (hi : i < n) (hfit : lo + n ≤ top + 1) :
    mirror f lo top a n (lo + i) =
      f (if top < lo + 2 * i then f (a (lo + i)) else a (top - i)) := by
  rw [mirror_keeps (Nat.lt_succ_self i) hi, mirror_round]
  refine congrArg f ?_
  by_cases hover : top < lo + 2 * i
  · obtain ⟨j, hj⟩ : ∃ j, top - i = lo + j := ⟨top - i - lo, by omega⟩
    have hji : j < i := by omega
    have hsrc : top - j = lo + i := by omega
    rw [if_pos hover, hj, mirror_keeps (Nat.lt_succ_self j) hji, mirror_round, hsrc,
      mirror_outside (by omega)]
  · rw [if_neg hover]
    exact mirror_outside (by omega)

end CDbK8s.Lib.MirrorCopy
