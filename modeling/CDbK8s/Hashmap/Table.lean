import CDbK8s.Hashmap.Model
import CDbK8s.Lib.CyclicProbe
import CDbK8s.Lib.NodeMap

/-!
# The table and its lookup
-/

namespace CDbK8s.Hashmap

open Lib.CyclicProbe Lib.NodeMap Function

variable {Key Val A : Type}

/-- The stored keys stand for abstract keys: `abs` gives the abstract key, `H` its
hash, and `valid` are the keys a caller may pass. -/
structure KeyLaws [DecidableEq Key] (T : Instance Key Val) (abs : Key → A) (H : A → Nat → Nat)
    (valid : Key → Prop) : Prop where
  top_ne_zero : T.top ≠ T.zero
  valid_ne_top : ∀ k, valid k → k ≠ T.top
  abs_sanitize : ∀ k, valid k → abs (sanitize T k) = abs k
  keyEq_iff : ∀ a b, a ≠ T.zero → b ≠ T.zero → (T.keyEq a b = true ↔ abs a = abs b)
  hash_eq : ∀ k, k ≠ T.zero → ∀ bits, T.hash k bits = H (abs k) bits
  hash_lt : ∀ k bits, 2 ≤ bits → bits ≤ 31 → T.hash k bits < 2 ^ bits

theorem KeyLaws.sanitize_ne_zero [DecidableEq Key] {T : Instance Key Val} {abs : Key → A}
    {H : A → Nat → Nat} {valid : Key → Prop} (L : KeyLaws T abs H valid) (k : Key) :
    sanitize T k ≠ T.zero := by
  unfold sanitize
  split
  · exact L.top_ne_zero
  · assumption

/-- The bucket `i` is in use. -/
def Occ (T : Instance Key Val) (buckets : Nat → Entry Key Val) (i : Nat) : Prop :=
  (buckets i).key ≠ T.zero

/-- The home of the entry in bucket `i`. -/
def home (T : Instance Key Val) (nbits : Nat) (buckets : Nat → Entry Key Val) (i : Nat) : Nat :=
  T.hash (buckets i).key nbits

/-- The abstract key and the value of the entry in bucket `i`. -/
def ent (abs : Key → A) (buckets : Nat → Entry Key Val) (i : Nat) : A × Val :=
  (abs (buckets i).key, (buckets i).val)

theorem ent_update (abs : Key → A) (buckets : Nat → Entry Key Val) (i : Nat)
    (e : Entry Key Val) : ent abs (update buckets i e) =
      update (ent abs buckets) i (abs e.key, e.val) := by
  funext j
  by_cases hj : j = i
  · subst hj
    simp [ent]
  · simp [ent, update_of_ne hj]

theorem ent_update_of_ne (abs : Key → A) (buckets : Nat → Entry Key Val) {c i : Nat} (hc : c ≠ i)
    (e : Entry Key Val) : ent abs (update buckets i e) c = ent abs buckets c := by
  rw [ent, update_of_ne hc, ent]

theorem home_update_self (T : Instance Key Val) (nbits : Nat) (b : Nat → Entry Key Val) (i : Nat)
    (e : Entry Key Val) : home T nbits (update b i e) i = T.hash e.key nbits := by
  simp [home]

theorem home_update_of_ne (T : Instance Key Val) (nbits : Nat) (b : Nat → Entry Key Val)
    {c i : Nat} (hc : c ≠ i) (e : Entry Key Val) :
    home T nbits (update b i e) c = home T nbits b c := by
  rw [home, update_of_ne hc, home]

theorem occ_update {T : Instance Key Val} (b : Nat → Entry Key Val) (i : Nat) {e : Entry Key Val}
    (he : e.key ≠ T.zero) (c : Nat) :
    Occ T (update b i e) c ↔ c = i ∨ Occ T b c := by
  by_cases hc : c = i
  · subst hc
    simp [Occ, he]
  · simp [Occ, hc]

/-- The invariant of the bucket array, between any two calls. -/
structure Table (T : Instance Key Val) (m : Map Key Val) : Prop where
  two_le : 2 ≤ m.nbits
  le : m.nbits ≤ 31
  growable : m.isFixed = false → m.nbits ≤ 30
  capacity : m.capacity = 2 ^ m.nbits
  mask : m.mask = 2 ^ m.nbits - 1
  threshold : m.threshold = (m.capacity >>> 1) + (m.capacity >>> 2)
  probing : Probing m.capacity (Occ T m.buckets) (home T m.nbits m.buckets)

/-- The map holds the finite map `f`. -/
structure Holds (T : Instance Key Val) (abs : Key → A) (m : Map Key Val)
    (f : A → Option Val) : Prop where
  shape : Table T m ∨ m = zeroMap T
  rep : Represents (m.Live T) (ent abs m.buckets) f
  size : m.size = (liveKeys f).ncard
  size_le : m.size ≤ m.threshold

/-! ## Sizes -/

section
variable {T : Instance Key Val} {abs : Key → A} {m : Map Key Val} {f : A → Option Val}

section
variable (h : Table T m)
include h

theorem Table.capacity_pos : 4 ≤ m.capacity := by
  rw [h.capacity]
  calc 4 = 2 ^ 2 := rfl
    _ ≤ 2 ^ m.nbits := Nat.pow_le_pow_right (by omega) h.two_le

theorem Table.capacity_le : m.capacity ≤ 2 ^ 31 := by
  rw [h.capacity]
  exact Nat.pow_le_pow_right (by omega) h.le

theorem Table.threshold_lt : m.threshold < m.capacity := by
  have hpos := h.capacity_pos
  rw [h.threshold]
  omega

theorem Table.next_eq (i : Nat) : i + 1 &&& m.mask = (i + 1) % m.capacity := by
  simp [h.mask, h.capacity]

end

theorem finite_live (T : Instance Key Val) (m : Map Key Val) : {i | m.Live T i}.Finite :=
  (Set.finite_Iio _).subset fun _ hi => hi.1

variable (h : Holds T abs m f)
include h

theorem Holds.ncard_live : {i | m.Live T i}.ncard = m.size := by
  rw [h.size, h.rep.ncard_liveKeys]

theorem Holds.table (hcap : m.capacity ≠ 0) : Table T m := by
  rcases h.shape with ht | rfl
  · exact ht
  · exact absurd rfl hcap

omit h in
theorem exists_empty (hlt : {i | m.Live T i}.ncard < m.capacity) :
    ∃ e < m.capacity, (m.buckets e).key = T.zero := by
  by_contra hfull
  push Not at hfull
  have hall : {i | m.Live T i} = ↑(Finset.range m.capacity) := by
    ext i
    rw [Finset.coe_range]
    exact ⟨fun hi => hi.1, fun hi => ⟨hi, hfull i hi⟩⟩
  rw [hall, Set.ncard_coe_finset, Finset.card_range] at hlt
  exact lt_irrefl _ hlt

theorem Holds.exists_empty (ht : Table T m) : ∃ e < m.capacity, (m.buckets e).key = T.zero := by
  refine Hashmap.exists_empty ?_
  rw [h.ncard_live]
  exact lt_of_le_of_lt h.size_le ht.threshold_lt

end

theorem zeroMap_not_live {T : Instance Key Val} (i : Nat) : ¬ (zeroMap T).Live T i :=
  fun h => Nat.not_lt_zero i h.1

/-! ## The probe loop -/

variable [DecidableEq Key] {T : Instance Key Val} {abs : Key → A} {H : A → Nat → Nat}
  {valid : Key → Prop} {m : Map Key Val} {f : A → Option Val}

/-- The loop passes the buckets in use with other keys and ends at the first other
one. The index `pos h t` is the one after `t` steps. -/
theorem probe_run (ht : Table T m) {key : Key} {h j : Nat} (hh : h < m.capacity)
    (hj : j < m.capacity)
    (hbusy : ∀ t < j, (m.buckets (pos m.capacity h t)).key ≠ T.zero ∧
      T.keyEq (m.buckets (pos m.capacity h t)).key key = false)
    (hstop : (m.buckets (pos m.capacity h j)).key = T.zero ∨
      T.keyEq (m.buckets (pos m.capacity h j)).key key = true) :
    ∀ fuel t, t ≤ j → j - t < fuel →
      probe T m key h fuel (pos m.capacity h t) = some (some (pos m.capacity h j)) := by
  intro fuel
  induction fuel with
  | zero => intro t _ hlt; omega
  | succ fuel ih =>
    intro t _ hlt
    by_cases htj : t = j
    · subst htj
      rw [probe]
      rcases hstop with hz | he
      · rw [if_pos hz]
      · by_cases hz : (m.buckets (pos m.capacity h t)).key = T.zero
        · rw [if_pos hz]
        · simp [if_pos he]
    · obtain ⟨hne, heq⟩ := hbusy t (by omega)
      have hback : pos m.capacity h (t + 1) ≠ h := by
        intro hback
        have hzero : pos m.capacity h (t + 1) = pos m.capacity h 0 := by
          rw [hback, pos_zero hh]
        have := pos_inj hh (by omega) (by omega) hzero
        omega
      rw [probe, if_neg hne, if_neg (by simp [heq]), ht.next_eq, pos_succ, if_neg hback]
      exact ih _ (by omega) (by omega)

theorem probeKey_run (ht : Table T m) (hlt : ∀ k, T.hash k m.nbits < m.capacity) {key : Key}
    {j : Nat} (hj : j < m.capacity)
    (hbusy : ∀ t < j, (m.buckets (pos m.capacity (T.hash key m.nbits) t)).key ≠ T.zero ∧
      T.keyEq (m.buckets (pos m.capacity (T.hash key m.nbits) t)).key key = false)
    (hstop : (m.buckets (pos m.capacity (T.hash key m.nbits) j)).key = T.zero ∨
      T.keyEq (m.buckets (pos m.capacity (T.hash key m.nbits) j)).key key = true) :
    probeKey T m key = some (some (pos m.capacity (T.hash key m.nbits) j)) := by
  have hrun := probe_run ht (hlt key) hj hbusy hstop (m.capacity + 1) 0 (by omega) (by omega)
  rwa [pos_zero (hlt key)] at hrun

variable (L : KeyLaws T abs H valid)
include L

theorem KeyLaws.hash_lt_capacity (ht : Table T m) (k : Key) : T.hash k m.nbits < m.capacity := by
  rw [ht.capacity]
  exact L.hash_lt k _ ht.two_le ht.le

theorem probeKey_found (ht : Table T m) (hrep : Represents (m.Live T) (ent abs m.buckets) f)
    {key : Key} (hk : key ≠ T.zero) {i : Nat} (hi : m.Live T i)
    (habs : abs (m.buckets i).key = abs key) : probeKey T m key = some (some i) := by
  have hlt := L.hash_lt_capacity ht
  have hhome : T.hash key m.nbits = home T m.nbits m.buckets i := by
    rw [home, L.hash_eq key hk, L.hash_eq _ hi.2, habs]
  have hpos : pos m.capacity (T.hash key m.nbits) (dist m.capacity (T.hash key m.nbits) i) = i :=
    pos_dist (hlt key) hi.1
  have hd := dist_lt (hlt key) hi.1
  have hrun : probeKey T m key =
      some (some (pos m.capacity (T.hash key m.nbits) (dist m.capacity (T.hash key m.nbits) i))) := by
    refine probeKey_run ht hlt hd (fun t htd => ?_) (.inr ?_)
    · have hocc : (m.buckets (pos m.capacity (T.hash key m.nbits) t)).key ≠ T.zero := by
        have := (ht.probing i hi.1 hi.2).2 t (by rw [← hhome]; exact htd)
        rwa [← hhome] at this
      refine ⟨hocc, ?_⟩
      -- another bucket with this key would be the same bucket
      rw [Bool.eq_false_iff]
      intro heq
      have hsame := (L.keyEq_iff _ _ hocc hk).1 heq
      have hlive : m.Live T (pos m.capacity (T.hash key m.nbits) t) := ⟨pos_lt (by omega), hocc⟩
      have hpi := hrep.unique _ hlive i hi (hsame.trans habs.symm)
      have := dist_pos (hlt key) (lt_trans htd hd)
      rw [hpi] at this
      omega
    · rw [hpos]
      exact (L.keyEq_iff _ _ hi.2 hk).2 habs
  rwa [hpos] at hrun

omit L in
theorem first_empty {n h : Nat} (hh : h < n) {b : Nat → Entry Key Val}
    (hempty : ∃ e < n, (b e).key = T.zero) :
    ∃ j < n, (b (pos n h j)).key = T.zero ∧ ∀ t < j, (b (pos n h t)).key ≠ T.zero := by
  obtain ⟨e, he, hzero⟩ := hempty
  have hat : (b (pos n h (dist n h e))).key = T.zero := by
    rw [pos_dist hh he]
    exact hzero
  have hex : ∃ j, (b (pos n h j)).key = T.zero := ⟨_, hat⟩
  refine ⟨Nat.find hex, ?_, Nat.find_spec hex, fun t ht => Nat.find_min hex ht⟩
  exact lt_of_le_of_lt (Nat.find_min' hex hat) (dist_lt hh he)

theorem probeKey_missing (ht : Table T m) (hempty : ∃ e < m.capacity, (m.buckets e).key = T.zero)
    {key : Key} (hk : key ≠ T.zero) (hnone : ∀ i, m.Live T i → abs (m.buckets i).key ≠ abs key) :
    ∃ p < m.capacity, (m.buckets p).key = T.zero ∧ probeKey T m key = some (some p) ∧
      ∀ j < dist m.capacity (T.hash key m.nbits) p,
        Occ T m.buckets (pos m.capacity (T.hash key m.nbits) j) := by
  have hlt := L.hash_lt_capacity ht
  obtain ⟨j, hj, hfirst, hbefore⟩ := first_empty (hlt key) hempty
  have hcap : 0 < m.capacity := by omega
  refine ⟨_, pos_lt hcap, hfirst, probeKey_run ht hlt hj (fun t htj => ?_) (.inl hfirst), ?_⟩
  · refine ⟨hbefore t htj, ?_⟩
    rw [Bool.eq_false_iff]
    intro heq
    exact hnone _ ⟨pos_lt hcap, hbefore t htj⟩ ((L.keyEq_iff _ _ (hbefore t htj) hk).1 heq)
  · intro t htd
    rw [dist_pos (hlt key) hj] at htd
    exact hbefore t htd

/-! ## Lookup -/

theorem mapGet_none (h : Holds T abs m f) {key : Key} (hv : valid key) (hf : f (abs key) = none) :
    mapGet T m key = some m.capacity := by
  rcases h.shape with ht | rfl
  · rw [mapGet]
    split
    · rfl
    · have hk := L.sanitize_ne_zero key
      obtain ⟨p, -, hzero, hprobe, -⟩ := probeKey_missing L ht (h.exists_empty ht) hk
        fun i hi habs => by
          have hsome := h.rep.eq_some hi (habs.trans (L.abs_sanitize key hv))
          rw [hf] at hsome
          simp at hsome
      rw [hprobe]
      simp [hzero]
  · rfl

theorem mapGet_some (h : Holds T abs m f) {key : Key} (hv : valid key) {v : Val}
    (hf : f (abs key) = some v) :
    ∃ i, mapGet T m key = some i ∧ m.Live T i ∧ abs (m.buckets i).key = abs key ∧
      (m.buckets i).val = v := by
  obtain ⟨i, hi, hent⟩ := (h.rep.live _ v).1 hf
  rw [Prod.mk.injEq] at hent
  refine ⟨i, ?_, hi, hent⟩
  rcases h.shape with ht | rfl
  · have hne : m.size ≠ 0 := by
      rw [← h.ncard_live, Ne, Set.ncard_eq_zero (finite_live T m)]
      intro hempty
      exact Set.notMem_empty i (hempty ▸ hi)
    have hprobe := probeKey_found L ht h.rep (L.sanitize_ne_zero key) hi
      (hent.1.trans (L.abs_sanitize key hv).symm)
    rw [mapGet, if_neg hne, hprobe]
    simp [hi.2]
  · exact absurd hi (zeroMap_not_live i)

end CDbK8s.Hashmap
