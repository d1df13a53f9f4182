import CDbK8s.Inet.Text

/-!
# The longest run of zeros

The search of `ip6_str_encode` goes through the groups of an address once.
-/

namespace CDbK8s.Inet

open Base

/-! ## Runs -/

/-- The `m` groups from group `q` on are zero. -/
def ZeroGroups (addr : Bytes) (n q m : Nat) : Prop :=
  q + m ≤ n ∧ ∀ j, q ≤ j → j < q + m → word addr (2 * j) = 0

/-- The groups from `p` on are the leftmost of the longest runs of zeros, with `l` groups. -/
structure LongestRun (addr : Bytes) (p l : Nat) : Prop where
  zeros : ZeroGroups addr 8 p l
  longest : ∀ q m, ZeroGroups addr 8 q m → m ≤ l
  leftmost : ∀ q, ZeroGroups addr 8 q l → p ≤ q

/-! ## The search -/

/-- Among the runs in the first `n` groups, the recorded one, with `b` groups, is the leftmost of the
longest. -/
structure Best (addr : Bytes) (n : Nat) (z : ZeroRun) (b : Nat) : Prop where
  zeroLen : z.zeroLen = 2 * b
  run : 0 < b → ∃ p : Nat, z.zeroPos = 2 * p ∧ ZeroGroups addr n p b
  longest : ∀ q m, 0 < m → ZeroGroups addr n q m → m ≤ b ∧ (m = b → z.zeroPos ≤ 2 * q)

/-- The search behind `n` groups: the current run has `c` groups, and the recorded one `b`. -/
structure Searched (addr : Bytes) (n : Nat) (z : ZeroRun) (c b : Nat) : Prop where
  curLen : z.curLen = 2 * c
  le : c ≤ n
  curPos : z.curPos = if c = 0 then -1 else ((2 * (n - c) : Nat) : Int)
  zero : ∀ j, n - c ≤ j → j < n → word addr (2 * j) = 0
  before : c < n → word addr (2 * (n - c - 1)) ≠ 0
  zeroLen : z.zeroLen = 2 * b
  run : 0 < b → ∃ p : Nat, z.zeroPos = 2 * p ∧ ZeroGroups addr n p b ∧ p + b ≤ n - c
  longest : ∀ q m, 0 < m → ZeroGroups addr n q m → n - c ≤ q ∨ (m ≤ b ∧ (m = b → z.zeroPos ≤ 2 * q))

variable {addr : Bytes} {n c b : Nat} {z : ZeroRun}

section
variable (h : Searched addr n z c b)
include h

/-- When the current run ends, the longer of it and the recorded one is the best. -/
theorem Searched.record : ∃ b', Best addr n z.record b' := by
  have hlen := h.curLen
  have hbest := h.zeroLen
  unfold ZeroRun.record
  by_cases hlonger : z.curLen > z.zeroLen
  · rw [if_pos hlonger]
    have hpos : z.curPos = ((2 * (n - c) : Nat) : Int) := by
      rw [h.curPos, if_neg (by omega)]
    have hle := h.le
    refine ⟨c, hlen, fun _ => ⟨n - c, ?_, by omega, fun j hge _ => h.zero j hge (by omega)⟩,
      fun q m hm hrun => ?_⟩
    · rw [hpos]
      rfl
    · have hfit := hrun.1
      rcases h.longest q m hm hrun with hin | ⟨hle, -⟩
      · refine ⟨by omega, fun _ => ?_⟩
        show z.curPos ≤ 2 * q
        omega
      · exact ⟨by omega, fun hm' => by omega⟩
  · rw [if_neg hlonger]
    refine ⟨b, hbest, fun hb => ?_, fun q m hm hrun => ?_⟩
    · obtain ⟨p, hpos, hzeros, -⟩ := h.run hb
      exact ⟨p, hpos, hzeros⟩
    · have hfit := hrun.1
      rcases h.longest q m hm hrun with hin | hold
      · -- a run inside the current one is behind the recorded one
        refine ⟨by omega, fun hm' => ?_⟩
        obtain ⟨p, hpos, -, hapart⟩ := h.run (by omega)
        omega
      · exact hold

theorem Searched.zero_step (hword : word addr (2 * n) = 0) :
    Searched addr (n + 1) (scanStep addr z (2 * n)) (c + 1) b := by
  have hle := h.le
  have hstart : n + 1 - (c + 1) = n - c := by omega
  unfold scanStep
  rw [if_pos hword]
  refine ⟨?_, by omega, ?_, ?_, ?_, h.zeroLen, ?_, ?_⟩
  · show z.curLen + 2 = 2 * (c + 1)
    rw [h.curLen]
    omega
  · rw [if_neg (Nat.succ_ne_zero c), hstart]
    rw [h.curPos]
    by_cases hc : c = 0
    · simp [hc]
    · rw [if_neg hc, if_neg (by omega)]
  · intro j _ hlt
    by_cases hj : j = n
    · rw [hj]
      exact hword
    · exact h.zero j (by omega) (by omega)
  · intro hlt
    rw [hstart]
    exact h.before (by omega)
  · intro hb
    obtain ⟨p, hpos, hzeros, hapart⟩ := h.run hb
    exact ⟨p, hpos, ⟨by omega, hzeros.2⟩, by omega⟩
  · intro q m hm hrun
    rw [hstart]
    by_cases hin : n - c ≤ q
    · exact .inl hin
    · -- the run does not reach the group in front of the current run
      have hfit : q + m ≤ n := by
        by_contra hlast
        exact h.before (by omega) (hrun.2 _ (by omega) (by omega))
      exact h.longest q m hm ⟨hfit, hrun.2⟩

theorem Searched.other_step (hword : word addr (2 * n) ≠ 0) :
    ∃ b', Searched addr (n + 1) (scanStep addr z (2 * n)) 0 b' := by
  obtain ⟨b', hbest⟩ := h.record
  unfold scanStep
  rw [if_neg hword]
  refine ⟨b', rfl, zero_le, rfl, fun j _ _ => by omega, fun _ => hword, hbest.zeroLen, ?_, ?_⟩
  · intro hb
    obtain ⟨p, hpos, hzeros⟩ := hbest.run hb
    exact ⟨p, hpos, ⟨by have := hzeros.1; omega, hzeros.2⟩, by have := hzeros.1; omega⟩
  · intro q m hm hrun
    have hfit : q + m ≤ n := by
      by_contra hlast
      have hle := hrun.1
      exact hword (hrun.2 n (by omega) (by omega))
    exact .inr (hbest.longest q m hm ⟨hfit, hrun.2⟩)

end

theorem searched_fold (addr : Bytes) (n : Nat) : ∃ c b, Searched addr n
      ((List.range n).foldl (fun z k => scanStep addr z (2 * k)) ⟨-1, 0, -1, 0⟩) c b := by
  induction n with
  | zero =>
    refine ⟨0, 0, rfl, le_rfl, rfl, fun j _ hlt => by omega, fun hlt => absurd hlt (by omega),
      rfl, fun hb => absurd hb (by omega), fun q m _ _ => ?_⟩
    omega
  | succ n ih =>
    obtain ⟨c, b, h⟩ := ih
    rw [List.range_succ, List.foldl_append]
    by_cases hword : word addr (2 * n) = 0
    · exact ⟨c + 1, b, h.zero_step hword⟩
    · obtain ⟨b', h'⟩ := h.other_step hword
      exact ⟨0, b', h'⟩

theorem zeroScan_longest (addr : Bytes) : ∃ b, (zeroScan addr).zeroLen = 2 * b ∧
      (0 < b → ∃ p : Nat, (zeroScan addr).zeroPos = 2 * p ∧ LongestRun addr p b) ∧
      ∀ q m, ZeroGroups addr 8 q m → m ≤ b := by
  obtain ⟨c, b, h⟩ := searched_fold _ 8
  obtain ⟨b', hbest⟩ := h.record
  have hall : ∀ q m, ZeroGroups addr 8 q m → m ≤ b' := by
    intro q m hrun
    by_cases hm : 0 < m
    · exact (hbest.longest q m hm hrun).1
    · omega
  refine ⟨b', hbest.zeroLen, fun hb => ?_, hall⟩
  obtain ⟨p, hpos, hzeros⟩ := hbest.run hb
  refine ⟨p, hpos, hzeros, hall, fun q hrun => ?_⟩
  have hleft := (hbest.longest q b' hb hrun).2 rfl
  omega

end CDbK8s.Inet
