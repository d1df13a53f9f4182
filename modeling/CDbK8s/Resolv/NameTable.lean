import CDbK8s.Resolv.CacheCoherence

/-!
# A map from stored names

`dns_resolv.c` keeps the names of `/etc/hosts` and of `/etc/services` in the same way: a name is
copied to a byte store, with its terminator, and a pointer to the copy is its key in a hash map. A
lookup passes a pointer to a buffer on the stack instead.

The keys are pointers to terminated names below the length of the store, so neither the bytes behind
them nor what the buffer on the stack holds makes a difference (`Names.holds`).
-/

namespace CDbK8s.Resolv

open Base Dns Hashmap Lib Lib.Block Lib.NodeMap List Function

variable {s : CString}
variable {name : Bytes}

/-! ## The table -/

/-- The store and the map of `struct dns_hosts` and `struct dns_services`. -/
structure NameTable (Val : Type) where
  storeLen : Nat
  store : Bytes
  map : Map Ptr Val

section
variable {Val : Type} (zeroVal : Val) (pl : Place) (behind : Bytes)

/-- The instance of the template during a call. -/
def NameTable.inst (t : NameTable Val) (name : Bytes) : Instance Ptr Val :=
  mapStr Val zeroVal (strIn pl t.store behind name)

/-- `map_get` with the buffer on the stack. -/
def NameTable.find (t : NameTable Val) (name : Bytes) : Option Nat :=
  mapGet (t.inst zeroVal pl behind name) t.map pl.name

/-- What `hosts_put` and `services_put` do with a name that is not in the map: the index of its
entry, if the name fits the store and the map. -/
def NameTable.add (t : NameTable Val) (name : Bytes) (val : Val) (callocOk : Bool) :
    Option (Option Nat × NameTable Val) :=
  if t.storeLen + (name.length + 1) > DNS_HOSTS_MAXSTORE then some (none, t)
  else
    let t' := { t with store := blit t.store t.storeLen (name ++ [0]) }
    match mapPut (t'.inst zeroVal pl behind name) t.map (pl.ptr t.storeLen) val callocOk with
    | none => none
    | some (idx, m) =>
      if idx = mapEnd m then some (none, { t' with map := m })
      else some (some idx, { t' with map := m, storeLen := t.storeLen + (name.length + 1) })

end

/-! ## What a table holds -/

/-- A terminated name in the store. -/
structure Stored (store : Bytes) (storeLen off : Nat) (s : CString) : Prop where
  fits : off + (s.1.length + 1) ≤ storeLen
  text : window store off (s.1.length + 1) = s.1 ++ [0]

/-- The table holds the names `names`, with the values that `f` gives. -/
structure Names {Val : Type} (zeroVal : Val) (pl : Place) (t : NameTable Val)
    (names : Finset CString) (f : CString → Option Val) : Prop where
  size : t.store.length = DNS_HOSTS_MAXSTORE
  used : t.storeLen = ∑ s ∈ names, (s.1.length + 1)
  fits : t.storeLen ≤ DNS_HOSTS_MAXSTORE
  named : ∀ s, s ∈ names ↔ f s ≠ none
  keys : t.map.Keys (t.inst zeroVal pl [] []) fun p =>
    ∃ off s, p = pl.ptr off ∧ Stored t.store t.storeLen off s
  now : Holds (t.inst zeroVal pl [] []) (strIn pl t.store [] []) t.map f

variable {Val : Type} {zeroVal : Val} {pl : Place} {t : NameTable Val} {names : Finset CString}
  {f : CString → Option Val}

theorem zero_notMem_lower (h : 0 ∉ name) : 0 ∉ name.map lower := by
  intro hmem
  obtain ⟨b, hb, hzero⟩ := mem_map.1 hmem
  exact lower_ne_zero (fun heq => h (heq ▸ hb)) hzero

theorem strIn_stored {store : Bytes} {storeLen off : Nat} (h : Stored store storeLen off s)
    (hsize : storeLen ≤ DNS_HOSTS_MAXSTORE) (behind name : Bytes) :
    strIn pl store behind name (pl.ptr off) = s := by
  have hfits := h.fits
  have hdrop : store.drop off = s.1 ++ 0 :: store.drop (off + (s.1.length + 1)) := by
    rw [← take_append_drop _ (store.drop off), drop_drop, ← window, h.text, append_assoc]
    rfl
  rw [strIn_text (by omega) hdrop]
  exact Subtype.ext (cstr_self s.2)

variable (h : Names zeroVal pl t names f)
include h

theorem Names.holds (behind name : Bytes) :
    Holds (t.inst zeroVal pl behind name) (strIn pl t.store behind name) t.map f := by
  refine h.now.remember fun i hi => ?_
  obtain ⟨off, s, hp, hs⟩ := h.keys i hi
  simp [hp, strIn_stored hs h.fits]

omit h in
theorem nameLaws (zeroVal : Val) (pl : Place) (behind : Bytes) (t : NameTable Val) (name : Bytes) :
    KeyLaws (t.inst zeroVal pl behind name) (strIn pl t.store behind name) mapHashstr StrPtr :=
  strLaws Val zeroVal _

theorem Names.find_none (behind : Bytes) (hf : f (strOf name) = none) :
    t.find zeroVal pl behind name = some (mapEnd t.map) := by
  refine mapGet_none (nameLaws _ pl _ t _) (h.holds _ _) pl.name_ptr ?_
  rw [strIn_name]
  exact hf

theorem Names.find_some (behind : Bytes) {v : Val} (hf : f (strOf name) = some v) :
    ∃ idx, t.find zeroVal pl behind name = some idx ∧ idx ≠ mapEnd t.map ∧
      t.map.Live (t.inst zeroVal pl behind name) idx ∧
      strIn pl t.store behind name (t.map.buckets idx).key = strOf name ∧
      mapVal (t.inst zeroVal pl behind name) t.map idx = v := by
  rw [← strIn_name pl _ _ _] at hf
  obtain ⟨idx, hget, hlive, habs, hval⟩ :=
    mapGet_some (nameLaws _ pl _ t _) (h.holds _ _) pl.name_ptr hf
  refine ⟨idx, hget, ne_of_lt hlive.1, hlive, habs.trans (strIn_name _ _ _ _), ?_⟩
  rw [mapVal, if_pos hlive, hval]

theorem Names.card : t.map.size = names.card := by
  have hlive : liveKeys f = ↑names := by
    ext s
    rw [Finset.mem_coe, h.named]
    rfl
  simp [h.now.size, hlive]

/-! ## Changes -/

omit h in
theorem Stored.blit {store bs : Bytes} {storeLen off len : Nat} (h : Stored store storeLen off s)
    (hlen : storeLen ≤ store.length) (hle : storeLen ≤ len) :
    Stored (Block.blit store storeLen bs) len off s :=
  ⟨le_trans h.fits hle, (window_blit_before hlen h.fits).trans h.text⟩

theorem Names.add (behind : Bytes) (hnul : 0 ∉ name) (hf : f (strOf name) = none)
    (hroom : t.storeLen + (name.length + 1) ≤ DNS_HOSTS_MAXSTORE) (hfew : names.card < 2 ^ 29)
    {callocOk : Bool}
    (hmap : t.map.size < t.map.threshold ∨ (t.map.isFixed = false ∧ callocOk = true)) (val : Val) :
    ∃ idx t', t.add zeroVal pl behind name val callocOk = some (some idx, t') ∧
      Names zeroVal pl t' (insert (strOf name) names) (update f (strOf name) (some val)) ∧
      strIn pl t'.store behind name (t'.map.buckets idx).key = strOf name ∧
      (t'.map.buckets idx).val = val ∧
      t'.map.Live (t'.inst zeroVal pl behind name) idx ∧ t'.map.isFixed = t.map.isFixed ∧
      (t.map.size < t.map.threshold → t'.map.threshold = t.map.threshold) := by
  have hval : (strOf name).1 = name := cstr_self hnul
  have hlen : t.storeLen ≤ t.store.length := h.size ▸ h.fits
  have hoff : t.storeLen < DNS_HOSTS_MAXSTORE := by omega
  have hvalid : StrPtr (pl.ptr t.storeLen) := pl.ptr_valid hoff
  let t1 : NameTable Val := { t with store := blit t.store t.storeLen (name ++ [0]) }
  have hold : ∀ off s, Stored t.store t.storeLen off s →
      Stored t1.store (t.storeLen + (name.length + 1)) off s :=
    fun off s hs => hs.blit hlen (Nat.le_add_right _ _)
  have hnew : Stored t1.store (t.storeLen + (name.length + 1)) t.storeLen (strOf name) := by
    refine ⟨by rw [hval], ?_⟩
    rw [hval]
    have hcopy := window_blit (name ++ [0]) hlen
    rwa [length_append, length_singleton] at hcopy
  have hholds : Holds (t1.inst zeroVal pl behind name) (strIn pl t1.store behind name) t.map f := by
    refine h.now.remember fun i hi => ?_
    obtain ⟨off, s, hp, hs⟩ := h.keys i hi
    rw [hp, strIn_stored (hold off s hs) hroom, strIn_stored hs h.fits]
  obtain ⟨idx, m', hput, hidx, hafter⟩ := mapPut_stores (nameLaws _ pl _ _ _) hholds
    (by rw [h.card]; exact hfew) hvalid val hmap
  have hsan : sanitize (t1.inst zeroVal pl behind name) (pl.ptr t.storeLen) = pl.ptr t.storeLen :=
    if_neg hvalid.1
  have hkeys := mapPut_keys (P := fun p => ∃ off s, p = pl.ptr off ∧ Stored t1.store _ off s)
    (fun i hi => by
      obtain ⟨off, s, hp, hs⟩ := h.keys i ⟨hi.1, hi.2⟩
      exact ⟨off, s, hp, hold off s hs⟩)
    (by rw [hsan]; exact ⟨_, _, rfl, hnew⟩) hput
  obtain ⟨hentry, hfix, hthr⟩ := mapPut_entry hput
  have hbucket := hentry.resolve_left (ne_of_lt hidx)
  rw [hsan] at hbucket
  rw [strIn_stored hnew hroom] at hafter
  let t2 : NameTable Val :=
    { t1 with map := m', storeLen := t.storeLen + (name.length + 1) }
  refine ⟨idx, t2, ?_, ⟨?_, ?_, hroom, ?_, ?_, ?_⟩, ?_, ?_, ⟨hidx, ?_⟩, hfix, hthr⟩
  · rw [NameTable.add, if_neg (not_lt.2 hroom)]
    dsimp only
    rw [hput]
    exact if_neg (ne_of_lt hidx)
  · rw [length_blit (by rw [h.size, length_append]; exact hroom), h.size]
  · have hnotin : strOf name ∉ names := fun hmem => (h.named _).1 hmem hf
    rw [Finset.sum_insert hnotin, ← h.used, hval, add_comm]
  · intro s
    rw [Finset.mem_insert, h.named]
    by_cases hs : s = strOf name
    · simp [hs]
    · simp [hs]
  · exact fun i hi => hkeys i ⟨hi.1, hi.2⟩
  · refine hafter.remember fun i hi => ?_
    obtain ⟨off, s, hp, hs⟩ := hkeys i hi
    rw [hp, strIn_stored hs hroom, strIn_stored hs hroom]
  · rw [hbucket]
    exact strIn_stored hnew hroom _ _
  · rw [hbucket]
  · rw [hbucket]
    exact hvalid.1

theorem Names.add_full (behind : Bytes)
    (hroom : t.storeLen + (name.length + 1) ≤ DNS_HOSTS_MAXSTORE)
    (hfull : t.map.threshold ≤ t.map.size) (hfix : t.map.isFixed = true) (val : Val)
    (callocOk : Bool) :
    ∃ t', t.add zeroVal pl behind name val callocOk = some (none, t') ∧
      Names zeroVal pl t' names f ∧ t'.map = t.map := by
  have hlen : t.storeLen ≤ t.store.length := h.size ▸ h.fits
  let t1 : NameTable Val := { t with store := blit t.store t.storeLen (name ++ [0]) }
  have hkeep : ∀ off s, Stored t.store t.storeLen off s → Stored t1.store t.storeLen off s :=
    fun off s hs => hs.blit hlen le_rfl
  have hput : mapPut (t1.inst zeroVal pl behind name) t.map (pl.ptr t.storeLen) val callocOk =
      some (mapEnd t.map, t.map) := by
    rw [mapPut, if_pos hfull, mapResize_refused (.inl hfix)]
    rfl
  refine ⟨t1, ?_, ⟨?_, h.used, h.fits, h.named, ?_, ?_⟩, rfl⟩
  · rw [NameTable.add, if_neg (not_lt.2 hroom)]
    dsimp only
    rw [hput]
    exact if_pos rfl
  · rw [length_blit (by rw [h.size, length_append]; exact hroom), h.size]
  · intro i hi
    obtain ⟨off, s, hp, hs⟩ := h.keys i ⟨hi.1, hi.2⟩
    exact ⟨off, s, hp, hkeep off s hs⟩
  · refine h.now.remember fun i hi => ?_
    obtain ⟨off, s, hp, hs⟩ := h.keys i hi
    rw [hp, strIn_stored (hkeep off s hs) h.fits, strIn_stored hs h.fits]

theorem Names.set (behind name : Bytes) {idx : Nat}
    (hlive : t.map.Live (t.inst zeroVal pl behind name) idx)
    (hkey : strIn pl t.store behind name (t.map.buckets idx).key = s) (val : Val) :
    Names zeroVal pl { t with map := (mapSet (t.inst zeroVal pl behind name) t.map idx val).2 } names
        (update f s (some val)) ∧
      (mapSet (t.inst zeroVal pl behind name) t.map idx val).2.isFixed = t.map.isFixed ∧
      (mapSet (t.inst zeroVal pl behind name) t.map idx val).2.threshold = t.map.threshold := by
  obtain ⟨hset, hafter⟩ := mapSet_live (nameLaws _ pl _ t _) (h.holds _ _) hlive val
  have hin : s ∈ names := by
    have hsome := (h.holds behind name).rep.eq_some hlive hkey
    rw [h.named, hsome]
    exact Option.some_ne_none _
  rw [hset]
  have hkeys : ∀ i, (update t.map.buckets idx ⟨(t.map.buckets idx).key, val⟩ i).key =
      (t.map.buckets i).key := by
    intro i
    by_cases hi : i = idx
    · rw [hi, update_self]
    · rw [update_of_ne hi]
  refine ⟨⟨h.size, h.used, h.fits, ?_, ?_, ?_⟩, rfl, rfl⟩
  · intro s'
    by_cases hs : s' = s
    · simp [hs, hin]
    · simp [hs, h.named]
  · intro i hi
    have hp := hkeys i
    have hne : (t.map.buckets i).key ≠ 0 := by
      rw [← hp]
      exact hi.2
    rw [hp]
    exact h.keys i ⟨hi.1, hne⟩
  · rw [hkey] at hafter
    refine hafter.remember fun i hi => ?_
    have hp := hkeys i
    have hne : (t.map.buckets i).key ≠ 0 := by
      rw [← hp]
      exact hi.2
    obtain ⟨off, s', hoff, hs⟩ := h.keys i ⟨hi.1, hne⟩
    show strIn pl t.store [] [] (update t.map.buckets idx _ i).key =
      strIn pl t.store behind name (update t.map.buckets idx _ i).key
    rw [hp, hoff, strIn_stored hs h.fits, strIn_stored hs h.fits]

end CDbK8s.Resolv
