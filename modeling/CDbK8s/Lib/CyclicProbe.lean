import Mathlib.Tactic

/-!
# Linear probing on a cyclic table

A table has `n` positions in a circle. An entry has a home position and is found by probing from
there, so the positions from its home up to the entry must be occupied (`Probing`).

Deletion without tombstones keeps a hole while it shifts entries back. `Holed` is the invariant
during the deletion: only the hole may interrupt a probe sequence.
-/

namespace CDbK8s.Lib.CyclicProbe

/-! ## Positions in a circle -/

/-- The position `j` steps after `h`. -/
def pos (n h j : Nat) : Nat := (h + j) % n

/-- The number of steps from `h` to `i`. -/
def dist (n h i : Nat) : Nat := if h ≤ i then i - h else i + n - h

section
variable {n h i j k : Nat}

theorem pos_lt (hn : 0 < n) : pos n h j < n := Nat.mod_lt _ hn

theorem pos_zero (hh : h < n) : pos n h 0 = h := Nat.mod_eq_of_lt hh

theorem pos_pos : pos n (pos n h j) k = pos n h (j + k) := by
  simp [pos, add_assoc]

theorem pos_succ : (pos n h j + 1) % n = pos n h (j + 1) := pos_pos

variable (hh : h < n)
include hh

theorem dist_lt (hi : i < n) : dist n h i < n := by
  unfold dist
  split <;> omega

theorem pos_dist (hi : i < n) : pos n h (dist n h i) = i := by
  unfold pos dist
  split
  · rw [Nat.add_sub_cancel' (by omega), Nat.mod_eq_of_lt hi]
  · have e : h + (i + n - h) = i + n := by omega
    simp [e, Nat.mod_eq_of_lt hi]

theorem dist_pos (hj : j < n) : dist n h (pos n h j) = j := by
  unfold dist pos
  by_cases hwrap : h + j < n
  · rw [Nat.mod_eq_of_lt hwrap, if_pos (by omega)]
    omega
  · have e : (h + j) % n = h + j - n := by
      rw [Nat.mod_eq_sub_mod (by omega), Nat.mod_eq_of_lt (by omega)]
    rw [if_neg (by omega)]
    omega

theorem pos_inj (hj : j < n) (hk : k < n) (heq : pos n h j = pos n h k) : j = k := by
  rw [← dist_pos hh hj, heq, dist_pos hh hk]

omit hh in
theorem dist_self : dist n h h = 0 := by
  unfold dist
  simp

theorem dist_eq_zero_iff : dist n h i = 0 ↔ h = i := by
  unfold dist
  split <;> omega

theorem dist_add (hi : i < n) (hk : k < n) (hle : dist n h i ≤ dist n h k) :
    dist n h k = dist n h i + dist n i k := by
  unfold dist at *
  split_ifs at * <;> omega

end

/-! ## Probe sequences -/

/-- No free slot lies between an entry and its home. -/
def Probing (n : Nat) (occ : Nat → Prop) (home : Nat → Nat) : Prop :=
  ∀ i < n, occ i → home i < n ∧ ∀ j < dist n (home i) i, occ (pos n (home i) j)

/-- The invariant while entries are shifted back into a hole. -/
structure Holed (n : Nat) (occ : Nat → Prop) (home : Nat → Nat) (hole : Nat) : Prop where
  lt : hole < n
  empty : ¬ occ hole
  home_lt : ∀ i < n, occ i → home i < n
  reach : ∀ i < n, occ i → ∀ j < dist n (home i) i, occ (pos n (home i) j) ∨ pos n (home i) j = hole

/-- The probe sequence from `h` to `i` crosses `hole`. -/
def Crosses (n h i hole : Nat) : Prop := dist n h hole < dist n h i

instance (n h i hole : Nat) : Decidable (Crosses n h i hole) :=
  inferInstanceAs (Decidable (_ < _))

variable {n : Nat} {occ occ' : Nat → Prop} {home home' : Nat → Nat} {hole : Nat}

theorem Probing.congr (h : Probing n occ home) (hocc : ∀ i < n, occ' i ↔ occ i)
    (hhome : ∀ i < n, occ i → home' i = home i) : Probing n occ' home' := by
  intro i hi ho
  have hoi := (hocc i hi).1 ho
  rw [hhome i hi hoi]
  obtain ⟨hlt, hreach⟩ := h i hi hoi
  refine ⟨hlt, fun j hj => ?_⟩
  exact (hocc _ (pos_lt (by omega))).2 (hreach j hj)

theorem probing_empty (h : ∀ i < n, ¬ occ i) : Probing n occ home :=
  fun i hi ho => absurd ho (h i hi)

theorem Probing.insert (h : Probing n occ home) {p hp : Nat} (hplt : hp < n)
    (hocc : ∀ i < n, occ' i ↔ i = p ∨ occ i) (hself : home' p = hp)
    (hother : ∀ i < n, i ≠ p → occ i → home' i = home i)
    (hpath : ∀ j < dist n hp p, occ (pos n hp j)) : Probing n occ' home' := by
  intro i hi ho
  have hn : 0 < n := by omega
  by_cases hip : i = p
  · subst hip
    rw [hself]
    exact ⟨hplt, fun j hj => (hocc _ (pos_lt hn)).2 (.inr (hpath j hj))⟩
  · have hoi := ((hocc i hi).1 ho).resolve_left hip
    obtain ⟨hlt, hreach⟩ := h i hi hoi
    rw [hother i hi hip hoi]
    exact ⟨hlt, fun j hj => (hocc _ (pos_lt hn)).2 (.inr (hreach j hj))⟩

theorem Probing.open_hole (h : Probing n occ home) {p : Nat} (hp : p < n)
    (hocc : ∀ i, occ' i ↔ occ i ∧ i ≠ p) : Holed n occ' home p := by
  refine ⟨hp, fun ho => ((hocc p).1 ho).2 rfl, fun i hi ho => (h i hi ((hocc i).1 ho).1).1, ?_⟩
  intro i hi ho j hj
  by_cases hjp : pos n (home i) j = p
  · exact .inr hjp
  · exact .inl ((hocc _).2 ⟨(h i hi ((hocc i).1 ho).1).2 j hj, hjp⟩)

variable (h : Holed n occ home hole)
include h

/-- An entry whose probe sequence crosses the hole may be moved into it; its old
position is the new hole. -/
theorem Holed.move {i : Nat} (hi : i < n) (ho : occ i) (hcross : Crosses n (home i) i hole)
    (hocc : ∀ c, occ' c ↔ c = hole ∨ (occ c ∧ c ≠ i)) (hself : home' hole = home i)
    (hother : ∀ c, c ≠ hole → home' c = home c) : Holed n occ' home' i := by
  have hhi := h.home_lt i hi ho
  have hne : i ≠ hole := by
    rintro rfl
    exact h.empty ho
  refine ⟨hi, ?_, ?_, ?_⟩
  · intro hc
    rcases (hocc i).1 hc with hc | hc
    · exact hne hc
    · exact hc.2 rfl
  · intro c hc hoc
    rcases (hocc c).1 hoc with rfl | ⟨hold, -⟩
    · rw [hself]
      exact hhi
    · have hch : c ≠ hole := by
        rintro rfl
        exact h.empty hold
      rw [hother c hch]
      exact h.home_lt c hc hold
  · intro c hc hoc j hj
    rcases (hocc c).1 hoc with rfl | ⟨hold, -⟩
    · -- the moved entry: a first part of its old probe sequence
      rw [hself] at hj ⊢
      have hjlt : j < dist n (home i) i := lt_trans hj hcross
      have hjn : j < n := lt_trans hjlt (dist_lt hhi hi)
      left
      rcases h.reach i hi ho j hjlt with hocc' | hhole
      · refine (hocc _).2 (.inr ⟨hocc', ?_⟩)
        intro heq
        have hd := dist_pos hhi hjn
        rw [heq] at hd
        omega
      · rw [← hhole, dist_pos hhi hjn] at hj
        exact absurd hj (lt_irrefl j)
    · have hch : c ≠ hole := by
        rintro rfl
        exact h.empty hold
      rw [hother c hch] at hj ⊢
      rcases h.reach c hc hold j hj with hocc' | hhole
      · by_cases heq : pos n (home c) j = i
        · exact .inr heq
        · exact .inl ((hocc _).2 (.inr ⟨hocc', heq⟩))
      · exact .inl ((hocc _).2 (.inl hhole))

/-- When no entry of the run behind the hole crosses it, the table is in order. The
run has the entries at the distances `1` to `r - 1`, and the position at distance
`r` is not occupied. -/
theorem Holed.close {r : Nat} (hr : 0 < r)
    (hrun : ∀ t, 0 < t → t < r → ¬ Crosses n (home (pos n hole t)) (pos n hole t) hole)
    (hend : ¬ occ (pos n hole r)) : Probing n occ home := by
  have hn : 0 < n := lt_of_le_of_lt zero_le h.lt
  intro i hi ho
  have hhi := h.home_lt i hi ho
  refine ⟨hhi, fun j hj => ?_⟩
  rcases h.reach i hi ho j hj with hocc' | hhole
  · exact hocc'
  · exfalso
    have hjn : j < n := lt_trans hj (dist_lt hhi hi)
    have hdist : dist n (home i) hole = j := by rw [← hhole, dist_pos hhi hjn]
    -- the entry lies `t` steps behind the hole
    have hsum := dist_add hhi h.lt hi (by omega)
    have hpos : pos n hole (dist n hole i) = i := pos_dist h.lt hi
    have htn := dist_lt h.lt hi
    by_cases htr : dist n hole i < r
    · refine hrun _ (by omega) htr ?_
      rw [hpos]
      exact (show dist n (home i) hole < dist n (home i) i by omega)
    · by_cases heq : dist n hole i = r
      · rw [← heq, hpos] at hend
        exact hend ho
      · -- the end of the run is on the probe sequence of the entry
        have hmid : pos n (home i) (j + r) = pos n hole r := by
          rw [← hhole, pos_pos]
        rcases h.reach i hi ho (j + r) (by omega) with hocc' | hhole'
        · rw [hmid] at hocc'
          exact hend hocc'
        · rw [hmid, ← pos_zero h.lt] at hhole'
          nth_rewrite 1 [pos_zero h.lt] at hhole'
          have := pos_inj h.lt (by omega) hn hhole'
          omega

end CDbK8s.Lib.CyclicProbe
