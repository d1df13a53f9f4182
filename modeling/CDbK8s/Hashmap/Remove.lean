import CDbK8s.Hashmap.Table

/-!
# Deletion by shifting back

`MAP_FN(rem)` empties a bucket without leaving a mark: it walks the run behind the hole and
moves an entry into the hole when the probe sequence of the entry crosses it.
-/

namespace CDbK8s.Hashmap

open Lib Lib.CyclicProbe Lib.NodeMap Function

variable {Key Val A : Type}

section
variable {n idx nidx kidx : Nat} (hi : idx < n) (hn : nidx < n) (hk : kidx < n)
include hi hn hk

theorem mustBackshift_eq_true_iff :
    mustBackshift idx nidx kidx = true ↔
      CyclicProbe.dist n kidx idx ≤ CyclicProbe.dist n kidx nidx := by
  unfold CyclicProbe.dist mustBackshift
  by_cases h1 : nidx < idx <;> by_cases h2 : kidx ≤ idx <;> by_cases h3 : kidx > nidx <;>
    simp only [h1, h2, h3, decide_true, decide_false, Bool.xor_true, Bool.xor_false, Bool.not_true,
      Bool.not_false, if_false, true_iff, false_iff, Bool.false_eq_true] <;>
    split_ifs <;> omega

theorem mustBackshift_iff (hne : idx ≠ nidx) :
    mustBackshift idx nidx kidx = true ↔ Crosses n kidx nidx idx := by
  rw [mustBackshift_eq_true_iff hi hn hk]
  unfold Crosses CyclicProbe.dist
  split_ifs <;> omega

theorem dist_hole_le_iff : CyclicProbe.dist n idx nidx ≤ CyclicProbe.dist n kidx nidx ↔
      CyclicProbe.dist n kidx idx ≤ CyclicProbe.dist n kidx nidx := by
  unfold CyclicProbe.dist
  split_ifs <;> omega

/-- An entry at `nidx` that was reached from its home over occupied buckets and the hole is
reached after its move into the hole just when its probe sequence did not end before the hole. -/
theorem reached_after_move_iff {occ : Nat → Prop}
    (hreach : ∀ j < CyclicProbe.dist n kidx nidx, occ (pos n kidx j) ∨ pos n kidx j = idx) :
    (∀ j < CyclicProbe.dist n kidx idx, pos n kidx j = idx ∨ occ (pos n kidx j) ∧ pos n kidx j ≠ nidx) ↔
      CyclicProbe.dist n kidx idx ≤ CyclicProbe.dist n kidx nidx := by
  constructor
  · intro h
    by_contra hlt
    have hat := h _ (not_le.1 hlt)
    rw [pos_dist hk hn] at hat
    rcases hat with rfl | ⟨-, hne⟩
    · exact hlt le_rfl
    · exact hne rfl
  · intro hle j hj
    rcases hreach j (hj.trans_le hle) with hocc | heq
    · refine .inr ⟨hocc, fun heq => ?_⟩
      have hdist := dist_pos hk (hj.trans (dist_lt hk hi))
      rw [heq] at hdist
      omega
    · exact .inl heq

end

/-- The branchless test and the one by cases agree, and they say that the entry's home is at
least as far in front of it as the hole, which is when the entry is still reached in the hole. -/
theorem backshift_test_iff (b idx nidx kidx : Nat) (hi : idx < 2 ^ b) (hn : nidx < 2 ^ b)
    (hk : kidx < 2 ^ b) : mustBackshift idx nidx kidx = mustBackshiftNormal idx nidx kidx ∧
      (mustBackshift idx nidx kidx = true ↔
        CyclicProbe.dist (2 ^ b) idx nidx ≤ CyclicProbe.dist (2 ^ b) kidx nidx) ∧
      ∀ occ : Nat → Prop, (∀ j < CyclicProbe.dist (2 ^ b) kidx nidx,
          occ (pos (2 ^ b) kidx j) ∨ pos (2 ^ b) kidx j = idx) →
        (mustBackshift idx nidx kidx = true ↔ ∀ j < CyclicProbe.dist (2 ^ b) kidx idx,
          pos (2 ^ b) kidx j = idx ∨ occ (pos (2 ^ b) kidx j) ∧ pos (2 ^ b) kidx j ≠ nidx) := by
  have hiff := mustBackshift_eq_true_iff hi hn hk
  refine ⟨?_, hiff.trans (dist_hole_le_iff hi hn hk).symm, fun _ hreach => ?_⟩
  · unfold mustBackshift mustBackshiftNormal
    by_cases h1 : nidx < idx <;> by_cases h2 : kidx ≤ idx <;> by_cases h3 : kidx > nidx <;>
      simp [h1, h3] <;> omega
  · exact hiff.trans (reached_after_move_iff hi hn hk hreach).symm

theorem backshift_test_wrapped : (1 : Nat) < 2 ^ 3 ∧ mustBackshift 7 1 6 = mustBackshiftNormal 7 1 6 :=
  ⟨by decide, (backshift_test_iff 3 7 1 6 (by decide) (by decide) (by decide)).1⟩

/-- The bucket is in use and is not the hole. -/
def Kept (T : Instance Key Val) (buckets : Nat → Entry Key Val) (hole i : Nat) : Prop :=
  Occ T buckets i ∧ i ≠ hole

/-- The walk behind `hole` has passed `r` entries that stay; the entries other than
the hole hold `f`, and the bucket `e` ahead is empty. -/
structure Shifting (T : Instance Key Val) (abs : Key → A) (n nbits : Nat) (f : A → Option Val)
    (e : Nat) (buckets : Nat → Entry Key Val) (hole r : Nat) : Prop where
  holed : Holed n (Kept T buckets hole) (home T nbits buckets) hole
  rep : Represents (fun i => i < n ∧ Kept T buckets hole i) (ent abs buckets) f
  stays : ∀ t, 0 < t → t ≤ r → ¬ Crosses n (home T nbits buckets (pos n hole t)) (pos n hole t) hole
  lt : e < n
  empty : (buckets e).key = T.zero
  ahead : r < dist n hole e

section
variable {T : Instance Key Val} {abs : Key → A} {n nbits : Nat} {f : A → Option Val} {e : Nat}
  {buckets : Nat → Entry Key Val} {hole r : Nat}
variable (h : Shifting T abs n nbits f e buckets hole r)
include h

theorem Shifting.next_lt : r + 1 < n := by
  have := dist_lt h.holed.lt h.lt
  have := h.ahead
  omega

theorem Shifting.next_ne : pos n hole (r + 1) ≠ hole := by
  intro heq
  have hzero : pos n hole (r + 1) = pos n hole 0 := by rw [heq, pos_zero h.holed.lt]
  have hlt := h.next_lt
  have := pos_inj h.holed.lt hlt (by omega) hzero
  omega

section
variable (hocc : Occ T buckets (pos n hole (r + 1)))
include hocc

theorem Shifting.next_ahead : r + 1 < dist n hole e := by
  have hne : r + 1 ≠ dist n hole e := by
    intro heq
    rw [heq, pos_dist h.holed.lt h.lt] at hocc
    exact hocc h.empty
  have := h.ahead
  omega

theorem Shifting.stay
    (hcross : ¬ Crosses n (home T nbits buckets (pos n hole (r + 1))) (pos n hole (r + 1)) hole) :
    Shifting T abs n nbits f e buckets hole (r + 1) := by
  refine { h with stays := fun t hpos _ => ?_, ahead := h.next_ahead hocc }
  by_cases ht : t ≤ r
  · exact h.stays t hpos ht
  · obtain rfl : t = r + 1 := by omega
    exact hcross

theorem Shifting.shift
    (hcross : Crosses n (home T nbits buckets (pos n hole (r + 1))) (pos n hole (r + 1)) hole) :
    Shifting T abs n nbits f e
      (update buckets hole (buckets (pos n hole (r + 1)))) (pos n hole (r + 1)) 0 := by
  have hlt : pos n hole (r + 1) < n := pos_lt (lt_of_le_of_lt zero_le h.next_lt)
  have hne := h.next_ne
  have hkept : Kept T buckets hole (pos n hole (r + 1)) := ⟨hocc, hne⟩
  have hnew : ∀ c, Kept T (update buckets hole (buckets (pos n hole (r + 1))))
      (pos n hole (r + 1)) c ↔
      c = hole ∨ (Kept T buckets hole c ∧ c ≠ pos n hole (r + 1)) := by
    intro c
    by_cases hc : c = hole
    · subst hc
      simpa [Kept, Occ] using ⟨hocc, hne.symm⟩
    · simp [Kept, Occ, hc]
  have he : e ≠ hole := by
    rintro rfl
    have := h.ahead
    rw [dist_self] at this
    exact Nat.not_lt_zero r this
  refine ⟨h.holed.move hlt hkept hcross hnew ?_ ?_, ?_, ?_, h.lt, ?_, ?_⟩
  · exact home_update_self T _ _ hole _
  · exact fun c hc => home_update_of_ne T _ _ hc _
  · rw [ent_update]
    refine h.rep.move ⟨hlt, hkept⟩ (fun hhole => hhole.2.2 rfl) fun c => ?_
    rw [hnew]
    refine ⟨?_, ?_⟩
    · rintro ⟨hcn, rfl | hc⟩
      · exact .inl rfl
      · exact .inr ⟨⟨hcn, hc.1⟩, hc.2⟩
    · rintro (rfl | ⟨hc, hci⟩)
      · exact ⟨h.holed.lt, .inl rfl⟩
      · exact ⟨hc.1, .inr ⟨hc.2, hci⟩⟩
  · omega
  · rw [update_of_ne he]
    exact h.empty
  · have hahead := h.next_ahead hocc
    have hd := dist_pos h.holed.lt h.next_lt
    have := dist_add h.holed.lt hlt h.lt (by omega)
    omega

end

theorem Shifting.finish (hzero : (buckets (pos n hole (r + 1))).key = T.zero) :
    Probing n (Kept T buckets hole) (home T nbits buckets) := by
  refine h.holed.close (Nat.succ_pos r) (fun t hpos _ => h.stays t hpos (by omega)) ?_
  exact fun hkept => hkept.1 hzero

end

theorem Holds.clear [DecidableEq A] {T : Instance Key Val} {abs : Key → A} {m : Map Key Val}
    {f : A → Option Val} (h : Holds T abs m f) (ht : Table T m) {k : A} (hk : f k ≠ none) {j : Nat}
    {b : Nat → Entry Key Val} (hprobing : Probing m.capacity (Kept T b j) (home T m.nbits b))
    (hrep : Represents (fun i => i < m.capacity ∧ Kept T b j i) (ent abs b) (update f k none)) :
    Holds T abs
      { m with buckets := update b j { b j with key := T.zero }
               size := (m.size + (2 ^ 32 - 1)) % 2 ^ 32 }
      (update f k none) := by
  have hkept : ∀ c, Occ T (update b j { b j with key := T.zero }) c ↔ Kept T b j c := by
    intro c
    by_cases hc : c = j
    · simp [Occ, Kept, hc]
    · simp [Occ, Kept, hc]
  have hpos : 0 < m.size := by
    rw [h.size, Set.ncard_pos (h.rep.finite_liveKeys (finite_live T m))]
    exact ⟨k, hk⟩
  have hbound := h.size_le
  have hcap := ht.capacity_le
  have hthr := ht.threshold_lt
  have hdec : (m.size + (2 ^ 32 - 1)) % 2 ^ 32 = m.size - 1 := by omega
  rw [hdec]
  refine ⟨.inl { ht with probing := ?_ }, ?_, ?_, ?_⟩
  · refine hprobing.congr (fun c _ => hkept c) fun c _ hc => ?_
    exact home_update_of_ne T _ b hc.2 _
  · refine hrep.congr (fun c => and_congr_right fun _ => hkept c) fun c hc => ?_
    exact ent_update_of_ne abs b hc.2.2 _
  · rw [ncard_liveKeys_erase hk, ← h.size]
  · show m.size - 1 ≤ m.threshold
    omega

variable [DecidableEq Key] {T : Instance Key Val} {abs : Key → A} {H : A → Nat → Nat}
  {valid : Key → Prop} {m : Map Key Val} {f : A → Option Val}

theorem backshift_spec {n mask nbits e : Nat} (hmask : ∀ i, i + 1 &&& mask = (i + 1) % n) :
    ∀ fuel buckets hole r, Shifting T abs n nbits f e buckets hole r → dist n hole e - r < fuel →
      ∃ hole' buckets', backshift T mask nbits fuel hole (pos n hole r) buckets =
          some (hole', buckets') ∧ hole' < n ∧
        Probing n (Kept T buckets' hole') (home T nbits buckets') ∧
        Represents (fun i => i < n ∧ Kept T buckets' hole' i) (ent abs buckets') f := by
  intro fuel
  induction fuel with
  | zero => intro buckets hole r _ hlt; omega
  | succ fuel ih =>
    intro buckets hole r h hlt
    have hnext : pos n hole (r + 1) < n := pos_lt (lt_of_le_of_lt zero_le h.next_lt)
    have hahead := h.ahead
    rw [backshift, hmask, pos_succ]
    by_cases hzero : (buckets (pos n hole (r + 1))).key = T.zero
    · rw [if_pos (.inr hzero)]
      exact ⟨hole, buckets, rfl, h.holed.lt, h.finish hzero, h.rep⟩
    · rw [if_neg (by simp [h.next_ne, hzero])]
      have hhome := h.holed.home_lt _ hnext ⟨hzero, h.next_ne⟩
      have htest : mustBackshift hole (pos n hole (r + 1))
          (T.hash (buckets (pos n hole (r + 1))).key nbits) = true ↔ _ :=
        mustBackshift_iff h.holed.lt hnext hhome h.next_ne.symm
      by_cases hcross : Crosses n (home T nbits buckets (pos n hole (r + 1)))
          (pos n hole (r + 1)) hole
      · have hshift := h.shift hzero hcross
        have hd := dist_pos h.holed.lt h.next_lt
        have hsum := dist_add h.holed.lt hnext h.lt (by omega)
        rw [if_pos (htest.2 hcross)]
        have hrun := ih _ _ 0 hshift (by omega)
        rwa [pos_zero hnext] at hrun
      · rw [if_neg (fun ht => hcross (htest.1 ht))]
        exact ih _ _ _ (h.stay hzero hcross) (by omega)

theorem mapGet_sanitize (L : KeyLaws T abs H valid) (key : Key) :
    mapGet T m (sanitize T key) = mapGet T m key := by
  have hidem : sanitize T (sanitize T key) = sanitize T key := by
    rw [sanitize, if_neg (L.sanitize_ne_zero key)]
  rw [mapGet, mapGet, hidem]

variable [DecidableEq A]

theorem mapRem_spec (h : Holds T abs m f) {i : Nat} (hi : m.Live T i) :
    ∃ j m', mapRem T m i = some (j, m') ∧ j < mapEnd m' ∧
      Holds T abs m' (update f (abs (m.buckets i).key) none) := by
  have ht : Table T m := h.table fun hzero => Nat.not_lt_zero i (hzero ▸ hi.1)
  have hlive : f (abs (m.buckets i).key) ≠ none := by
    rw [h.rep.eq_some hi (show (ent abs m.buckets i).1 = abs (m.buckets i).key from rfl)]
    simp
  have hsize : m.size ≠ 0 := by
    rw [← h.ncard_live, Ne, Set.ncard_eq_zero (finite_live T m)]
    intro hempty
    exact Set.notMem_empty i (hempty ▸ hi)
  obtain ⟨e, he, hzero⟩ := h.exists_empty ht
  have hie : i ≠ e := by
    rintro rfl
    exact hi.2 hzero
  have hstart : Shifting T abs m.capacity m.nbits
      (update f (abs (m.buckets i).key) none) e m.buckets i 0 := by
    refine ⟨ht.probing.open_hole hi.1 fun c => Iff.rfl, ?_, fun t _ _ => by omega, he, hzero, ?_⟩
    · refine h.rep.erase fun c => ⟨fun hc => ⟨⟨hc.1, hc.2.1⟩, fun hk => ?_⟩, fun hc => ?_⟩
      · exact hc.2.2 (h.rep.unique c ⟨hc.1, hc.2.1⟩ i hi hk)
      · refine ⟨hc.1.1, hc.1.2, ?_⟩
        rintro rfl
        exact hc.2 rfl
    · exact Nat.pos_of_ne_zero fun hd => hie ((dist_eq_zero_iff hi.1).1 hd)
  obtain ⟨j, b, hrun, hj, hprobing, hrep⟩ := backshift_spec ht.next_eq (m.capacity + 1) _ _ _ hstart
    (by have := dist_lt hi.1 he; omega)
  rw [pos_zero hi.1] at hrun
  refine ⟨j, _, ?_, ?_, h.clear ht hlive hprobing hrep⟩
  · rw [mapRem, if_neg (by have := hi.1; omega), hrun]
  · exact hj

theorem mapDel_spec (L : KeyLaws T abs H valid) (h : Holds T abs m f) {key : Key}
    (hv : valid key) :
    ∃ j m', mapDel T m key = some (j, m') ∧ (j < mapEnd m' ↔ f (abs key) ≠ none) ∧
      Holds T abs m' (update f (abs key) none) := by
  unfold mapDel
  rw [mapGet_sanitize L]
  cases hf : f _ with
  | none =>
    rw [mapGet_none L h hv hf, ← hf, update_eq_self]
    exact ⟨m.capacity, m, if_pos rfl, by simp [mapEnd], h⟩
  | some v =>
    obtain ⟨i, hget, hi, habs, -⟩ := mapGet_some L h hv hf
    obtain ⟨j, m', hrem, hj, hnew⟩ := mapRem_spec h hi
    rw [habs] at hnew
    rw [hget]
    refine ⟨j, m', ?_, by simpa using hj, hnew⟩
    dsimp only
    rw [if_neg (ne_of_lt hi.1), hrem]

end CDbK8s.Hashmap
