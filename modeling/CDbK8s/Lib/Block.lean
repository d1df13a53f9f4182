import Mathlib.Tactic

/-!
# Blocks of memory as lists
-/

namespace CDbK8s.Lib.Block

open List

universe u

variable {α : Type u}

/-- The `n` elements at `pos`. -/
def window (mem : List α) (pos n : Nat) : List α := (mem.drop pos).take n

/-- `memcpy` of `bs` to `pos`. -/
def blit (mem : List α) (pos : Nat) (bs : List α) : List α :=
  mem.take pos ++ bs ++ mem.drop (pos + bs.length)

/-- `memmove` of the `n` elements at `src` to the start of the block. -/
def moveDown (mem : List α) (src n : Nat) : List α := blit mem 0 (window mem src n)

/-- A block of `size` elements that starts with what `mem` holds; `fresh` is what the rest
of it happens to hold. -/
def resized (mem : List α) (size : Nat) (fresh : Nat → α) : List α :=
  (range size).map fun i => mem.getD i (fresh i)

variable {mem bs : List α} {pos n k : Nat}

theorem length_window (h : pos + n ≤ mem.length) : (window mem pos n).length = n := by
  simp [window]
  omega

theorem window_add (mem : List α) (pos n k : Nat) :
    window mem pos (n + k) = window mem pos n ++ window mem (pos + n) k := by
  simp [window, take_add]

theorem length_blit (h : pos + bs.length ≤ mem.length) : (blit mem pos bs).length = mem.length := by
  simp [blit]
  omega

theorem window_blit (bs : List α) (h : pos ≤ mem.length) :
    window (blit mem pos bs) pos bs.length = bs := by
  have hlen : (mem.take pos).length = pos := by
    rw [length_take]
    omega
  rw [window, blit, append_assoc, drop_append_of_le_length (by omega),
    drop_of_length_le (le_of_eq hlen), nil_append, take_left]

theorem window_blit_before (h : pos ≤ mem.length) {a : Nat} (ha : a + n ≤ pos) :
    window (blit mem pos bs) a n = window mem a n := by
  have hlen : (mem.take pos).length = pos := by
    rw [length_take]
    omega
  rw [window, blit, append_assoc, drop_append_of_le_length (by omega),
    take_append_of_le_length (by rw [length_drop]; omega), drop_take,
    take_take, window, Nat.min_eq_left (by omega)]

theorem getElem?_blit_behind (h : pos ≤ mem.length) {i : Nat} (hi : pos + bs.length ≤ i) :
    (blit mem pos bs)[i]? = mem[i]? := by
  have hlen : (mem.take pos ++ bs).length = pos + bs.length := by
    simp
    omega
  rw [blit, List.getElem?_append_right (by omega), List.getElem?_drop]
  exact congrArg _ (by omega)

theorem length_resized (mem : List α) (size : Nat) (fresh : Nat → α) :
    (resized mem size fresh).length = size := by
  simp [resized]

theorem window_resized {size : Nat} (fresh : Nat → α) (h : pos + n ≤ mem.length)
    (hsize : pos + n ≤ size) : window (resized mem size fresh) pos n = window mem pos n := by
  refine ext_getElem ?_ fun i _ hi' => ?_
  · rw [length_window h, length_window (by rw [length_resized]; exact hsize)]
  · rw [length_window h] at hi'
    simp only [window, getElem_take, getElem_drop, resized, getElem_map, getElem_range]
    rw [List.getD_eq_getElem?_getD, List.getElem?_eq_getElem (by omega), Option.getD_some]

theorem window_set {i : Nat} {v : α} (h : i < pos ∨ pos + n ≤ i) :
    window (mem.set i v) pos n = window mem pos n := by
  refine ext_getElem ?_ fun j _ hj' => ?_
  · simp [window]
  · have hlt : j < n := by
      simp [window] at hj'
      omega
    simp only [window, getElem_take, getElem_drop]
    exact getElem_set_ne (by omega) _

end CDbK8s.Lib.Block
