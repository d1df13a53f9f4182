import CDbK8s.Hashmap.Table

/-!
# Storing and growing
-/

namespace CDbK8s.Hashmap

open Lib.CyclicProbe Lib.NodeMap Function

variable {c : Nat}
variable {Key Val A : Type}

section
variable [DecidableEq Key] [DecidableEq A] {T : Instance Key Val} {abs : Key → A}
  {H : A → Nat → Nat} {valid : Key → Prop} {m : Map Key Val} {f : A → Option Val}
variable (L : KeyLaws T abs H valid) (h : Holds T abs m f)
include L h

/-- Overwriting the entry of a live key by another key of the same meaning. -/
theorem Holds.overwrite (ht : Table T m) {i : Nat} (hi : m.Live T i) {key : Key} (hk : key ≠ T.zero)
    (habs : abs (m.buckets i).key = abs key) (val : Val) :
    Holds T abs { m with buckets := update m.buckets i ⟨key, val⟩ }
      (update f (abs key) (some val)) := by
  have hocc : ∀ c, Occ T (update m.buckets i ⟨key, val⟩) c ↔ Occ T m.buckets c := by
    intro c
    rw [occ_update _ i hk, or_iff_right_of_imp]
    rintro rfl
    exact hi.2
  have hhome : ∀ c, home T m.nbits (update m.buckets i ⟨key, val⟩) c =
      home T m.nbits m.buckets c := by
    intro c
    by_cases hc : c = i
    · subst hc
      simp [home, L.hash_eq key hk, L.hash_eq _ hi.2, habs]
    · rw [home_update_of_ne T _ _ hc]
  have hlive : f (abs key) ≠ none := by
    rw [h.rep.eq_some hi habs]
    simp
  refine ⟨.inl { ht with probing := ?_ }, ?_, ?_, h.size_le⟩
  · exact ht.probing.congr (fun c _ => hocc c) fun c _ _ => hhome c
  · rw [ent_update]
    refine h.rep.insert (fun _ => habs) fun c => ?_
    rw [show Map.Live T { m with buckets := update m.buckets i ⟨key, val⟩ } c ↔
      m.Live T c from and_congr_right fun _ => hocc c]
    refine ⟨fun hc => ?_, ?_⟩
    · by_cases hci : c = i
      · exact .inl hci
      · refine .inr ⟨hci, hc, fun hck => hci ?_⟩
        exact h.rep.unique c hc i hi (hck.trans habs.symm)
    · rintro (rfl | ⟨-, hc, -⟩)
      · exact hi
      · exact hc
  · rw [liveKeys_update_of_live hlive]
    exact h.size

/-- Filling the first empty bucket of the probe sequence of a key that is not live. -/
theorem Holds.fill (ht : Table T m) (hroom : m.size < m.threshold) {p : Nat} (hp : p < m.capacity)
    (hzero : (m.buckets p).key = T.zero) {key : Key} (hk : key ≠ T.zero) (hf : f (abs key) = none)
    (hpath : ∀ j < dist m.capacity (T.hash key m.nbits) p, Occ T m.buckets (pos m.capacity (T.hash
      key m.nbits) j)) (val : Val) :
    Holds T abs
      { m with size := (m.size + 1) % 2 ^ 32
               buckets := update m.buckets p ⟨key, val⟩ }
      (update f (abs key) (some val)) := by
  have hcap := ht.capacity_le
  have hthr := ht.threshold_lt
  have hsize : (m.size + 1) % 2 ^ 32 = m.size + 1 := Nat.mod_eq_of_lt (by omega)
  have hnot : ¬ m.Live T p := fun hl => hl.2 hzero
  have hocc := occ_update m.buckets p (e := ⟨key, val⟩) hk
  refine ⟨.inl { ht with probing := ?_ }, ?_, ?_, ?_⟩
  · refine ht.probing.insert (L.hash_lt_capacity ht key) (fun c _ => hocc c) ?_ ?_ hpath
    · exact home_update_self T _ _ p _
    · intro c _ hc _
      exact home_update_of_ne T _ _ hc _
  · rw [ent_update]
    refine h.rep.insert (fun hl => absurd hl hnot) fun c => ?_
    refine ⟨fun hc => ?_, ?_⟩
    · by_cases hcp : c = p
      · exact .inl hcp
      · have hlive : m.Live T c := ⟨hc.1, ((hocc c).1 hc.2).resolve_left hcp⟩
        refine .inr ⟨hcp, hlive, fun hck => ?_⟩
        have hsome := h.rep.eq_some hlive hck
        rw [hf] at hsome
        simp at hsome
    · rintro (rfl | ⟨-, hc, -⟩)
      · exact ⟨hp, (hocc c).2 (.inl rfl)⟩
      · exact ⟨hc.1, (hocc c).2 (.inr hc.2)⟩
  · rw [hsize, ncard_liveKeys_insert (h.rep.finite_liveKeys (finite_live T m)) hf, ← h.size]
  · rw [hsize]
    exact hroom

theorem putEntry_spec (ht : Table T m) (hroom : m.size < m.threshold) {key : Key} (hv : valid key)
    (val : Val) :
    ∃ i m', putEntry T m key val = some (i, m') ∧ i < m'.capacity ∧
      Holds T abs m' (update f (abs key) (some val)) := by
  have hk := L.sanitize_ne_zero key
  have habs := L.abs_sanitize key hv
  rw [putEntry, if_neg (L.valid_ne_top key hv)]
  cases hf : f _ with
  | some v =>
    obtain ⟨i, hi, hent⟩ := (h.rep.live _ v).1 hf
    rw [Prod.mk.injEq] at hent
    have hsame := hent.1.trans habs.symm
    have hnew := h.overwrite L ht hi hk hsame val
    rw [habs] at hnew
    rw [probeKey_found L ht h.rep hk hi hsame]
    exact ⟨i, _, rfl, hi.1, by simpa [hi.2] using hnew⟩
  | none =>
    obtain ⟨p, hp, hzero, hprobe, hpath⟩ := probeKey_missing L ht (h.exists_empty ht) hk
      fun i hi hia => by
        have hsome := h.rep.eq_some hi (hia.trans habs)
        rw [hf] at hsome
        simp at hsome
    have hnew := h.fill L ht hroom hp hzero hk (by rw [habs]; exact hf) hpath val
    rw [habs] at hnew
    rw [hprobe]
    exact ⟨p, _, rfl, hp, by simpa [hzero] using hnew⟩

theorem mapSet_live {i : Nat} (hi : m.Live T i) (val : Val) :
    mapSet T m i val = (i, { m with
        buckets := update m.buckets i ⟨(m.buckets i).key, val⟩ }) ∧
      Holds T abs { m with buckets := update m.buckets i ⟨(m.buckets i).key, val⟩ }
        (update f (abs (m.buckets i).key) (some val)) := by
  rcases h.shape with ht | rfl
  · exact ⟨by rw [mapSet, if_pos hi], h.overwrite L ht hi hi.2 rfl val⟩
  · exact absurd hi (zeroMap_not_live i)

end

/-! ## Growing -/

/-- The map that `MAP_FN(resize)` leaves, with the buckets and the size of the rehash
loop. -/
def newTable (nbits : Nat) (buckets : Nat → Entry Key Val) (size : Nat) : Map Key Val :=
  { buckets, capacity := 2 ^ nbits, threshold := (2 ^ nbits >>> 1) + (2 ^ nbits >>> 2), size
    mask := 2 ^ nbits - 1, nbits, isFixed := false }

theorem newTable_holds (T : Instance Key Val) (abs : Key → A) {nbits : Nat} (hlo : 2 ≤ nbits)
    (hhi : nbits ≤ 30) : Holds T abs (newTable nbits (fun _ => T.zeroEntry) 0) fun _ => none := by
  refine ⟨.inl ⟨hlo, by show nbits ≤ 31; omega, fun _ => hhi, rfl, rfl, rfl, ?_⟩, ?_, ?_, ?_⟩
  · exact probing_empty fun _ _ ho => ho rfl
  · exact represents_empty fun _ hl => hl.2 rfl
  · simp [newTable, liveKeys]
  · exact zero_le

section
variable [DecidableEq Key] {T : Instance Key Val} {abs : Key → A}
  {H : A → Nat → Nat} {valid : Key → Prop} {m : Map Key Val} {f : A → Option Val}

theorem freeSlot_run {n mask : Nat} {b : Nat → Entry Key Val}
    (hmask : ∀ i, i + 1 &&& mask = (i + 1) % n) {h j : Nat}
    (hbusy : ∀ t < j, (b (pos n h t)).key ≠ T.zero) (hstop : (b (pos n h j)).key = T.zero) :
    ∀ fuel t, t ≤ j → j - t < fuel → freeSlot T b mask fuel (pos n h t) = some (pos n h j) := by
  intro fuel
  induction fuel with
  | zero => intro t _ hlt; omega
  | succ fuel ih =>
    intro t _ hlt
    by_cases htj : t = j
    · subst htj
      rw [freeSlot, if_pos hstop]
    · rw [freeSlot, if_neg (hbusy t (by omega)), hmask, pos_succ]
      exact ih _ (by omega) (by omega)

theorem freeSlot_spec (h : Holds T abs m f) (ht : Table T m) {hash : Nat}
    (hlt : hash < m.capacity) :
    ∃ p < m.capacity, (m.buckets p).key = T.zero ∧
      freeSlot T m.buckets m.mask (m.mask + 2) hash = some p ∧
      ∀ j < dist m.capacity hash p, Occ T m.buckets (pos m.capacity hash j) := by
  obtain ⟨j, hj, hfirst, hbefore⟩ := first_empty hlt (h.exists_empty ht)
  have hmask := ht.mask
  have hcap := ht.capacity
  have hrun := freeSlot_run ht.next_eq hbefore hfirst (m.mask + 2) 0 (by omega) (by omega)
  rw [pos_zero hlt] at hrun
  refine ⟨_, pos_lt (by omega), hfirst, hrun, fun t htd => ?_⟩
  rw [dist_pos hlt hj] at htd
  exact hbefore t htd

variable [DecidableEq A]

/-- The loop moves the entries from index `i` on; `g` is the part of the map that the
entries before `i` hold. -/
theorem rehash_spec (L : KeyLaws T abs H valid) (h : Holds T abs m f) {nbits : Nat}
    (hthr : m.size ≤ (2 ^ nbits >>> 1) + (2 ^ nbits >>> 2)) :
    ∀ n i b size g, i + n = m.capacity →
      Represents (fun j => m.Live T j ∧ j < i) (ent abs m.buckets) g →
      Holds T abs (newTable nbits b size) g →
      ∃ b' size', rehash T m.buckets nbits (2 ^ nbits - 1) n i b size = some (b', size') ∧
        Holds T abs (newTable nbits b' size') f := by
  intro n
  induction n with
  | zero =>
    intro i b size g hi hg hnew
    have hall : Represents (m.Live T) (ent abs m.buckets) g :=
      hg.congr (fun j => ⟨fun hj => ⟨hj, by have := hj.1; omega⟩, And.left⟩) fun _ _ => rfl
    rw [hall.ext h.rep] at hnew
    exact ⟨b, size, rfl, hnew⟩
  | succ n ih =>
    intro i b size g hi hg hnew
    by_cases hz : (m.buckets i).key = T.zero
    · rw [rehash, if_pos hz]
      refine ih _ b _ g (by omega) (hg.congr (fun j => and_congr_right fun hj => ?_)
        fun _ _ => rfl) hnew
      have hji : j ≠ i := by
        rintro rfl
        exact hj.2 hz
      omega
    · have hlive : m.Live T i := ⟨by omega, hz⟩
      have ht := hnew.table (Nat.two_pow_pos _).ne'
      obtain ⟨p, hp, hzero, hslot, hpath⟩ :=
        freeSlot_spec hnew ht (L.hash_lt_capacity ht (m.buckets i).key)
      have hother : ∀ j, m.Live T j ∧ j < i → (ent abs m.buckets j).1 ≠ abs (m.buckets i).key := by
        intro j hj heq
        have := h.rep.unique j hj.1 i hlive heq
        omega
      -- the entry `i` is not among those moved before, so there is room for it
      have hroom : size < (2 ^ nbits >>> 1) + (2 ^ nbits >>> 2) := by
        have hsize : size = {j | m.Live T j ∧ j < i}.ncard := by
          rw [← hg.ncard_liveKeys]
          exact hnew.size
        refine lt_of_lt_of_le ?_ hthr
        rw [hsize, ← h.ncard_live]
        refine Set.ncard_lt_ncard ⟨fun j hj => hj.1, fun hsub => ?_⟩ (finite_live T m)
        exact lt_irrefl i (hsub hlive).2
      have hfill := hnew.fill L ht hroom hp hzero hz (hg.eq_none hother) hpath (m.buckets i).val
      rw [rehash, if_neg hz]
      rw [show freeSlot T b (2 ^ nbits - 1) (2 ^ nbits - 1 + 2) (T.hash (m.buckets i).key nbits) =
        some p from hslot]
      refine ih _ _ _ _ (by omega) ?_ hfill
      refine hg.add (fun hi => lt_irrefl i hi.2) hother fun j => ⟨fun hj => ?_, ?_⟩
      · by_cases hji : j = i
        · exact .inl hji
        · exact .inr ⟨hj.1, by omega⟩
      · rintro (rfl | hj)
        · exact ⟨hlive, Nat.lt_succ_self j⟩
        · exact ⟨hj.1, by omega⟩

theorem mapResize_spec (L : KeyLaws T abs H valid) (h : Holds T abs m f) (hfix : m.isFixed = false)
    (hlo : 2 ≤ newBits c) (hhi : newBits c ≤ 30)
    (hthr : m.size ≤ (2 ^ newBits c >>> 1) + (2 ^ newBits c >>> 2)) :
    ∃ b size, mapResize T m c true = some (true, newTable (newBits c) b size) ∧
      Holds T abs (newTable (newBits c) b size) f := by
  obtain ⟨b, size, hrun, hnew⟩ := rehash_spec L h hthr m.capacity 0 (fun _ => T.zeroEntry) 0
    (fun _ => none) (by omega) (represents_empty fun j hj => Nat.not_lt_zero j hj.2)
    (newTable_holds T abs hlo hhi)
  refine ⟨b, size, ?_, hnew⟩
  simp only [mapResize, hfix, hrun]
  rfl

omit [DecidableEq A] in
theorem mapResize_refused {m : Map Key Val} {callocOk : Bool}
    (hno : m.isFixed = true ∨ callocOk = false) : mapResize T m c callocOk = some (false, m) := by
  unfold mapResize
  cases hfix : m.isFixed with
  | true => rfl
  | false =>
    have hcalloc : callocOk = false := hno.resolve_left (by simp [hfix])
    subst hcalloc
    rfl

end

/-! ## The capacity after a resize -/

theorem two_le_newBits (c : Nat) : 2 ≤ newBits c := by
  unfold newBits
  dsimp only
  split <;> omega

theorem newBits_le (hpos : 1 ≤ c) (hle : c ≤ 2 ^ 30) : newBits c ≤ 30 := by
  have hsub : (c + (2 ^ 32 - 1)) % 2 ^ 32 = c - 1 := by omega
  have hbits : calcBits (c - 1) ≤ 30 := by
    unfold calcBits
    split
    · omega
    · rename_i hne
      have := (Nat.log2_lt hne).2 (show c - 1 < 2 ^ 30 by omega)
      omega
  unfold newBits
  rw [hsub]
  dsimp only
  split <;> omega

theorem newBits_succ {b : Nat} (hlo : 2 ≤ b) (hhi : b ≤ 29) :
    newBits ((2 ^ b + 1) % 2 ^ 32) = b + 1 := by
  have hpow : 2 ^ b ≤ 2 ^ 29 := Nat.pow_le_pow_right (by omega) hhi
  have hpos := Nat.two_pow_pos b
  have hsub : ((2 ^ b + 1) % 2 ^ 32 + (2 ^ 32 - 1)) % 2 ^ 32 = 2 ^ b := by omega
  unfold newBits
  rw [hsub, calcBits, if_neg hpos.ne', Nat.log2_two_pow]
  rw [if_neg (by omega)]

/-! ## The calls -/

theorem zeroMap_holds (T : Instance Key Val) (abs : Key → A) :
    Holds T abs (zeroMap T) fun _ => none := by
  refine ⟨.inr rfl, represents_empty zeroMap_not_live, ?_, le_rfl⟩
  simp [zeroMap, liveKeys]

theorem mapAttach_spec (T : Instance Key Val) (abs : Key → A) (m : Map Key Val) {b : Nat}
    (hlo : 2 ≤ b) (hhi : b ≤ 31) :
    ∃ m', mapAttach m (fun _ => T.zeroEntry) (2 ^ b) = (true, m') ∧
      Holds T abs m' fun _ => none := by
  have hfour : 2 ^ 2 ≤ 2 ^ b := Nat.pow_le_pow_right (by omega) hlo
  have hand : 2 ^ b &&& (2 ^ b - 1) = 0 := by
    simp
  have hbits : calcBits (2 ^ b - 1) = b := by
    obtain ⟨a, rfl⟩ : ∃ a, b = a + 1 := ⟨b - 1, by omega⟩
    have hlog : Nat.log2 (2 ^ (a + 1) - 1) = a := by
      rw [Nat.log2_eq_iff (by omega)]
      omega
    rw [calcBits, if_neg (by omega), hlog]
  unfold mapAttach
  rw [if_neg (by simp only [hand]; omega), hbits]
  refine ⟨_, rfl, .inl ⟨hlo, hhi, fun hfix => ?_, rfl, rfl, rfl, ?_⟩, ?_, ?_, zero_le⟩
  · cases hfix
  · exact probing_empty fun _ _ ho => ho rfl
  · exact represents_empty fun _ hl => hl.2 rfl
  · simp [liveKeys]

variable [DecidableEq Key] [DecidableEq A] {T : Instance Key Val} {abs : Key → A}
  {H : A → Nat → Nat} {valid : Key → Prop} {m : Map Key Val} {f : A → Option Val}
variable (L : KeyLaws T abs H valid)
include L

theorem mapInit_spec (hpos : 1 ≤ c) (hle : c ≤ 2 ^ 30) (callocOk : Bool) :
    ∃ m, mapInit T (zeroMap T) c callocOk = some (callocOk, m) ∧ Holds T abs m fun _ => none := by
  cases callocOk with
  | true =>
    obtain ⟨b, size, hrun, hnew⟩ := mapResize_spec L (zeroMap_holds T abs) rfl
      (two_le_newBits c) (newBits_le hpos hle) zero_le
    exact ⟨_, hrun, hnew⟩
  | false => exact ⟨_, mapResize_refused (.inr rfl), zeroMap_holds T abs⟩

variable (h : Holds T abs m f)
include h

theorem mapResize_full (hfull : m.threshold ≤ m.size) (hfew : m.size < 2 ^ 29)
    (hfix : m.isFixed = false) :
    ∃ m', mapResize T m ((m.capacity + 1) % 2 ^ 32) true = some (true, m') ∧ Table T m' ∧
      m'.size < m'.threshold ∧ Holds T abs m' f := by
  have key : ∀ c b, newBits c = b → b ≤ 30 → m.size < (2 ^ b >>> 1) + (2 ^ b >>> 2) →
      ∃ m', mapResize T m c true = some (true, m') ∧ Table T m' ∧
        m'.size < m'.threshold ∧ Holds T abs m' f := by
    rintro c b rfl hhi hroom
    obtain ⟨buckets, size, hrun, hnew⟩ := mapResize_spec L h hfix (two_le_newBits c) hhi hroom.le
    refine ⟨_, hrun, hnew.table (Nat.two_pow_pos _).ne', ?_, hnew⟩
    rw [hnew.size, ← h.size]
    exact hroom
  rcases h.shape with ht | rfl
  · -- below `2 ^ 29` keys a full table has at most `2 ^ 29` buckets
    have hthr := ht.threshold
    rw [ht.capacity] at hthr
    have hsize := h.size_le
    have hb : m.nbits ≤ 29 := by
      by_contra hlarge
      have : 2 ^ 30 ≤ 2 ^ m.nbits := Nat.pow_le_pow_right (by omega) (by omega)
      omega
    rw [ht.capacity]
    refine key _ _ (newBits_succ ht.two_le hb) (by omega) ?_
    have hpow : 2 ^ 2 ≤ 2 ^ m.nbits := Nat.pow_le_pow_right (by omega) ht.two_le
    omega
  · exact key _ 2 (show newBits ((0 + 1) % 2 ^ 32) = 2 by decide) (by omega) (by simp [zeroMap])

theorem mapPut_stores (hfew : m.size < 2 ^ 29) {key : Key} (hv : valid key) (val : Val)
    {callocOk : Bool} (hroom : m.size < m.threshold ∨ (m.isFixed = false ∧ callocOk = true)) :
    ∃ i m', mapPut T m key val callocOk = some (i, m') ∧ i < mapEnd m' ∧
      Holds T abs m' (update f (abs key) (some val)) := by
  unfold mapPut
  by_cases hfull : m.size ≥ m.threshold
  · obtain ⟨hfix, rfl⟩ := hroom.resolve_left (not_lt.2 hfull)
    obtain ⟨m1, hrun, ht, hroom, hold⟩ := mapResize_full L h hfull hfew hfix
    rw [if_pos hfull, hrun]
    exact putEntry_spec L hold ht hroom hv val
  · have ht : Table T m := by
      rcases h.shape with ht | rfl
      · exact ht
      · exact absurd le_rfl hfull
    rw [if_neg hfull]
    exact putEntry_spec L h ht (by omega) hv val

theorem mapPut_spec (hfew : m.size < 2 ^ 29) {key : Key} (hv : valid key) (val : Val)
    (callocOk : Bool) :
    ∃ i m', mapPut T m key val callocOk = some (i, m') ∧ ((i = mapEnd m' ∧ m' = m) ∨
        (i < mapEnd m' ∧ Holds T abs m' (update f (abs key) (some val)))) := by
  by_cases hroom : m.size < m.threshold ∨ (m.isFixed = false ∧ callocOk = true)
  · obtain ⟨i, m', hput, hi, hnew⟩ := mapPut_stores L h hfew hv val hroom
    exact ⟨i, m', hput, .inr ⟨hi, hnew⟩⟩
  · obtain ⟨hfull, hno⟩ := not_or.1 hroom
    have hno' : m.isFixed = true ∨ callocOk = false := by
      cases hfix : m.isFixed with
      | true => exact .inl rfl
      | false => exact .inr (Bool.eq_false_iff.2 fun hok => hno ⟨hfix, hok⟩)
    rw [mapPut, if_pos (not_lt.1 hfull), mapResize_refused hno']
    exact ⟨m.capacity, m, rfl, .inl ⟨rfl, rfl⟩⟩

end CDbK8s.Hashmap
