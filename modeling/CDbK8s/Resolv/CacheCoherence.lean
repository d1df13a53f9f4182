import CDbK8s.Resolv.Cache
import Mathlib.Data.Nat.Bitwise

/-!
# What the cache remembers

A stored name has no terminator, so a name that is stored while another is in the map changes the
key of the other, which is not found any more. The cache is coherent over the runs that store a new
name only while the map is empty.
-/

namespace CDbK8s.Resolv

open Base Dns Hashmap Lib Lib.Block Lib.NodeMap List Function

variable {bs : Bytes} {mem : Ptr → CString} {ttl : UInt32}
variable {key : CacheKey} {host : HostName}

/-! ## Names and pointers -/

/-- The name under which the cache keeps a key. -/
def nameOf (key : CacheKey) : Bytes := famChar key.1 :: key.2

theorem nameOf_inj {k1 k2 : CacheKey} (h : nameOf k1 = nameOf k2) : k1 = k2 := by
  obtain ⟨f2, n2⟩ := k2
  rw [nameOf, nameOf, List.cons.injEq] at h
  obtain ⟨hfam, rfl⟩ := h
  have hinj : ∀ f f', famChar f = famChar f' → f = f'
    | .ip4, .ip4, _ => rfl
    | .ip6, .ip6, _ => rfl
  exact congrArg (·, _) (hinj _ _ hfam)

theorem lower_ne_zero {b : UInt8} (h : b ≠ 0) : lower b ≠ 0 := by
  unfold lower
  split
  · rename_i hup
    intro hzero
    have hnat : (b + 32).toNat = 0 := by rw [hzero]; rfl
    have hhi : b.toNat ≤ (90 : UInt8).toNat := hup.2
    simp at hhi hnat
    omega
  · exact h

theorem zero_notMem_nameOf (fam : Fam) (host : HostName) : 0 ∉ nameOf (cacheKey fam host) := by
  intro hmem
  rcases mem_cons.1 hmem with hfam | hhost
  · have hne : ∀ f, 0 ≠ famChar f
      | .ip4 => by decide
      | .ip6 => by decide
    exact hne fam hfam
  · obtain ⟨b, hb, hzero⟩ := mem_map.1 hhost
    exact lower_ne_zero (fun h => host.noNul (h ▸ hb)) hzero

theorem cacheName_host (fam : Fam) (host : HostName) :
    cacheName fam host.text = some (nameOf (cacheKey fam host)) := by
  have hshort := host.short
  rw [cacheName, if_neg (by simp only [DNS_HOSTS_MAXNAME]; omega)]
  rfl

theorem cstr_append {rest : Bytes} (h : 0 ∉ bs) : cstr (bs ++ rest) = bs ++ cstr rest := by
  rw [cstr, cstr, takeWhile_append_of_pos]
  intro b hb
  have hne : b ≠ 0 := fun hzero => h (hzero ▸ hb)
  simpa using hne

theorem cstr_self (h : 0 ∉ bs) : cstr bs = bs := by
  calc cstr bs = cstr (bs ++ []) := by rw [append_nil]
    _ = bs ++ [] := cstr_append h
    _ = bs := append_nil bs

theorem cstr_append_zero (bs rest : Bytes) : cstr (bs ++ 0 :: rest) = cstr bs := by
  rw [cstr, cstr, takeWhile_append]
  split
  · rename_i hall
    rw [takeWhile_cons_of_neg (by simp), append_nil, (List.takeWhile_prefix _).eq_of_length hall]
  · rfl

theorem strOf_inj {b1 b2 : Bytes} (h1 : 0 ∉ b1) (h2 : 0 ∉ b2) (h : strOf b1 = strOf b2) :
    b1 = b2 := by
  have hval : cstr b1 = cstr b2 := congrArg Subtype.val h
  rwa [cstr_self h1, cstr_self h2] at hval

section
variable {pl : Place} {c : Cache} {name : Bytes} {off : Nat}

section
variable (h : off < DNS_HOSTS_MAXSTORE)
include h

theorem Place.ptr_sub : (pl.ptr off - pl.store).toNat = off := by
  have hsub : pl.ptr off - pl.store = UInt64.ofNat off := by
    rw [Place.ptr, UInt64.add_comm, UInt64.add_sub_cancel]
  rw [hsub, UInt64.toNat_ofNat_of_lt']
  exact lt_trans h (by decide)

theorem Place.toNat_ptr : (pl.ptr off).toNat = pl.store.toNat + off := by
  have hend := pl.store_end
  have hlt : off < 2 ^ 64 := lt_trans h (by decide)
  rw [Place.ptr, UInt64.toNat_add, UInt64.toNat_ofNat_of_lt' hlt]
  exact Nat.mod_eq_of_lt (by omega)

theorem Place.ptr_valid : StrPtr (pl.ptr off) := by
  have hpos := pl.store_pos
  have hend := pl.store_end
  have hnat := pl.toNat_ptr h
  refine ⟨fun hzero => ?_, fun htop => ?_⟩
  · rw [hzero] at hnat
    have : (0 : UInt64).toNat = 0 := rfl
    omega
  · rw [htop] at hnat
    have : (0xFFFFFFFFFFFFFFFF : UInt64).toNat = 2 ^ 64 - 1 := rfl
    omega

end

theorem strIn_name (pl : Place) (store behind name : Bytes) :
    strIn pl store behind name pl.name = strOf name := by
  simp [strIn, if_neg (not_lt.2 pl.apart)]

theorem strIn_text {store behind rest : Bytes} (hoff : off < DNS_HOSTS_MAXSTORE)
    (hdrop : store.drop off = bs ++ 0 :: rest) :
    strIn pl store behind name (pl.ptr off) = strOf bs := by
  rw [strIn, Place.ptr_sub hoff, if_pos hoff, hdrop, append_assoc]
  exact Subtype.ext (cstr_append_zero bs _)

theorem strAt_name : c.strAt pl name pl.name = strOf name := strIn_name pl _ _ name

theorem strAt_text (hsize : c.store.length = DNS_HOSTS_MAXSTORE)
    (htext : window c.store off bs.length = bs) (hend : c.store[off + bs.length]? = some 0) :
    c.strAt pl name (pl.ptr off) = strOf bs := by
  obtain ⟨hlt, hzero⟩ := List.getElem?_eq_some_iff.1 hend
  have hdrop : c.store.drop off = bs ++ 0 :: c.store.drop (off + bs.length + 1) := by
    rw [← take_append_drop _ (c.store.drop off), drop_drop,
      drop_eq_getElem_cons hlt, hzero, ← window, htext]
  exact strIn_text (by omega) hdrop

end

/-! ## Expiry -/

theorem dnsTimeGeq_live {now expiry : Nat} (h : now < expiry) (hle : expiry ≤ now + 2 ^ 31) :
    dnsTimeGeq now (toInt32 expiry) = false := by
  rw [dnsTimeGeq, decide_eq_false_iff_not]
  simp only [toInt32]
  omega

theorem dnsTimeGeq_expired {now expiry : Nat} (h : expiry ≤ now)
    (hwrap : (now - expiry) % 2 ^ 32 < 2 ^ 31) : dnsTimeGeq now (toInt32 expiry) = true := by
  rw [dnsTimeGeq, decide_eq_true_iff]
  simp only [toInt32]
  omega

theorem ttl_lt_iff : ttl &&& 0x80000000 = 0 ↔ ttl.toNat < 2 ^ 31 := by
  have hlt := ttl.toNat_lt
  rw [← UInt32.toNat_inj]
  show ttl.toNat &&& 2 ^ 31 = 0 ↔ ttl.toNat < 2 ^ 31
  have hbit : 2 ^ 31 * (ttl.toNat.testBit 31).toNat = 0 ↔ ttl.toNat / 2 ^ 31 % 2 = 0 := by
    simp [Nat.testBit_eq_decide_div_mod_eq]
  rw [Nat.land_comm, Nat.two_pow_and]
  omega

/-! ## The invariant -/

/-- The name in the map: its place in the store, and what was put for it. -/
structure Held where
  key : CacheKey
  off : Nat
  addr : SockAddr
  expiry : Nat

/-- What the map holds. -/
def contents : Option Held → CString → Option Nat
  | none => fun _ => none
  | some h => update (fun _ => none) (strOf (nameOf h.key)) (some 0)

/-- The name is the last one of the store, with a zero byte behind it, and is what the map
points to. -/
structure Sits (pl : Place) (c : Cache) (h : Held) : Prop where
  noNul : 0 ∉ nameOf h.key
  last : h.off + (nameOf h.key).length = c.storeLen
  text : window c.store h.off (nameOf h.key).length = nameOf h.key
  ends : c.store[c.storeLen]? = some 0
  keys : c.nameToaddr.Keys (c.inst pl []) (· = pl.ptr h.off)

/-- The cache is empty, or it holds this entry, the latest of its key. -/
def Recorded (pl : Place) (s : Session) : Option Held → Prop
  | none => s.cache.numAddr = 0 ∧ (s.cache.addr 0).sockType = 0
  | some h => s.cache.numAddr = 1 ∧ s.cache.addr 0 = { h.addr with sockType := toInt32 h.expiry } ∧
      s.latest h.key = some (h.addr, h.expiry) ∧ h.expiry ≤ s.now + 2 ^ 31 ∧ Sits pl s.cache h

/-- The invariant of a session: the map holds the one name or none, and all others have
expired. -/
structure Inv (pl : Place) (s : Session) (held : Option Held) : Prop where
  maxAddr : s.cache.maxAddr = DNS_HOSTS_MAXADDR
  store : s.cache.store.length = DNS_HOSTS_MAXSTORE
  addrs : s.cache.addrs.length = DNS_HOSTS_MAXADDR
  holds : ∀ name, Holds (s.cache.inst pl name) (s.cache.strAt pl name) s.cache.nameToaddr
    (contents held)
  past : ∀ key addr expiry, s.latest key = some (addr, expiry) →
    (∀ h, held = some h → h.key ≠ key) → expiry ≤ s.now
  recorded : Recorded pl s held

theorem holds_nothing {mem' : Ptr → CString} {m : Map Ptr Nat}
    (h : Holds (mapStr Nat 0 mem) mem m fun _ => none) :
    Holds (mapStr Nat 0 mem') mem' m fun _ => none := by
  refine h.remember fun i hi => ?_
  have hsome := h.rep.eq_some hi rfl
  exact absurd hsome (by simp)

theorem Sits.holds {pl : Place} {c c' : Cache} {h : Held} (hs : Sits pl c h)
    (hsize : c.store.length = DNS_HOSTS_MAXSTORE) (hmem : mem (pl.ptr h.off) = strOf (nameOf h.key))
    (hh : Holds (mapStr Nat 0 mem) mem c.nameToaddr (contents (some h)))
    (hmap : c'.nameToaddr = c.nameToaddr) (hstore : c'.store = c.store) (name : Bytes) :
    Holds (c'.inst pl name) (c'.strAt pl name) c'.nameToaddr (contents (some h)) := by
  rw [hmap]
  refine hh.remember fun i hi => ?_
  show c'.strAt pl name _ = mem _
  rw [hs.keys i ⟨hi.1, hi.2⟩, hmem]
  refine strAt_text (by rw [hstore, hsize]) (by rw [hstore, hs.text]) ?_
  rw [hstore, hs.last, hs.ends]

theorem inv_start (pl : Place) (now : Nat) : Inv pl (Session.start now) none := by
  refine ⟨rfl, length_replicate, length_replicate, fun _ => ?_,
    fun _ _ _ h => absurd h (by simp [Session.start]), rfl, rfl⟩
  exact holds_nothing (zeroMap_holds (mapStr Nat 0 fun _ => ⟨[], zero_notMem_nil⟩) _)

/-! ## Lookups -/

section
variable {pl : Place} {c : Cache} {s : Session} {held : Option Held} {h : Held}

theorem instLaws (c : Cache) (pl : Place) (name : Bytes) :
    KeyLaws (c.inst pl name) (c.strAt pl name) mapHashstr StrPtr := strLaws Nat 0 _

theorem lookup_other (hs : Inv pl s held) (hnul : 0 ∉ nameOf key)
    (hother : ∀ h, held = some h → h.key ≠ key) :
    mapGet (s.cache.inst pl (nameOf key)) s.cache.nameToaddr pl.name =
      some (mapEnd s.cache.nameToaddr) := by
  refine mapGet_none (instLaws _ _ _) (hs.holds _) pl.name_ptr ?_
  rw [strAt_name]
  cases held with
  | none => rfl
  | some h =>
    have hne : strOf (nameOf key) ≠ strOf (nameOf h.key) := fun heq =>
      hother h rfl (nameOf_inj (strOf_inj hs.recorded.2.2.2.2.noNul hnul heq.symm))
    rw [contents, update_of_ne hne]

theorem lookup_held (hh : Holds (c.inst pl (nameOf h.key)) (c.strAt pl (nameOf h.key))
      c.nameToaddr (contents (some h))) :
    ∃ idx, mapGet (c.inst pl (nameOf h.key)) c.nameToaddr pl.name = some idx ∧
      c.nameToaddr.Live (c.inst pl (nameOf h.key)) idx ∧
      c.strAt pl (nameOf h.key) (c.nameToaddr.buckets idx).key = strOf (nameOf h.key) ∧
      mapVal (c.inst pl (nameOf h.key)) c.nameToaddr idx = 0 := by
  have hfound : contents (some h) (c.strAt pl (nameOf h.key) pl.name) = some 0 := by
    simp [strAt_name, contents]
  obtain ⟨idx, hget, hlive, habs, hval⟩ := mapGet_some (instLaws _ _ _) hh pl.name_ptr hfound
  refine ⟨idx, hget, hlive, habs.trans strAt_name, ?_⟩
  rw [mapVal, if_pos hlive]
  exact hval

theorem Inv.wait (hs : Inv pl s held) (wait : Nat) :
    Inv pl { s with now := s.now + wait } held := by
  refine ⟨hs.maxAddr, hs.store, hs.addrs, hs.holds,
    fun key addr expiry hlast hother => Nat.le_add_right_of_le (hs.past key _ _ hlast hother),
    ?_⟩
  cases held with
  | none => exact hs.recorded
  | some h =>
    obtain ⟨hnum, haddr, hlast, hexp, hsits⟩ := hs.recorded
    exact ⟨hnum, haddr, hlast, by show h.expiry ≤ s.now + wait + 2 ^ 31; omega, hsits⟩

/-! ## One get -/

/-- Behind the expiry, the clock is less than `2 ^ 31` ahead of it, modulo `2 ^ 32`. -/
def Session.Timely (s : Session) (key : CacheKey) (now : Nat) : Prop :=
  ∀ r ∈ s.latest key, r.2 ≤ now → (now - r.2) % 2 ^ 32 < 2 ^ 31

theorem expected_other (hs : Inv pl s held) (hother : ∀ h, held = some h → h.key ≠ key) :
    s.expected key s.now = none := by
  unfold Session.expected
  cases hlast : s.latest key with
  | none => rfl
  | some r =>
    have hexp := hs.past key r.1 r.2 hlast hother
    exact if_neg (not_lt.2 hexp)

/-- The session without the expired name. The counter `n` is a variable here, since the
difference in `size_t` that it stands for is not to be computed. -/
theorem Inv.clear (hs : Inv pl s (some h)) (hexp : h.expiry ≤ s.now) {m' : Map Ptr Nat}
    (hnew : Holds (mapStr Nat 0 mem) mem m' fun _ => none) {n : Nat} (hn : n = 0) :
    Inv pl { s with
      cache := { s.cache with
        nameToaddr := m'
        addrs := s.cache.addrs.set 0 { s.cache.addr 0 with sockType := 0 }
        numAddr := n } } none := by
  obtain ⟨-, -, hlast, -⟩ := hs.recorded
  refine ⟨hs.maxAddr, hs.store, (length_set).trans hs.addrs, fun _ => holds_nothing hnew,
    ?_, hn, ?_⟩
  · intro key addr expiry hl _
    by_cases hk : h.key = key
    · subst hk
      have hpair : (h.addr, h.expiry) = (addr, expiry) := Option.some.inj (hlast.symm.trans hl)
      exact (Prod.mk.inj hpair).2 ▸ hexp
    · refine hs.past key addr expiry hl fun _ hh' => ?_
      rw [Option.some.injEq] at hh'
      exact hh' ▸ hk
  · show ((s.cache.addrs.set 0 _).getD 0 SockAddr.zero).sockType = 0
    rw [List.getD_eq_getElem?_getD, List.getElem?_set_self (by rw [hs.addrs]; decide)]
    rfl

section
variable {now : Nat} {fam : Fam} {hostname : Bytes}
  (hh : Holds (c.inst pl (nameOf h.key)) (c.strAt pl (nameOf h.key)) c.nameToaddr
    (contents (some h)))
  (haddr : c.addr 0 = { h.addr with sockType := toInt32 h.expiry })
  (hname : cacheName fam hostname = some (nameOf h.key))
include hh haddr hname

theorem get_expired (hexp : h.expiry ≤ now) (htimely : (now - h.expiry) % 2 ^ 32 < 2 ^ 31) :
    ∃ m', cacheGet pl c fam hostname now =
        some (none, { c with
          nameToaddr := m'
          addrs := c.addrs.set 0 { c.addr 0 with sockType := 0 }
          numAddr := sizeSub c.numAddr 1 }) ∧
      Holds (c.inst pl (nameOf h.key)) (c.strAt pl (nameOf h.key)) m' fun _ => none := by
  obtain ⟨idx, hget, hlive, habs, hval⟩ := lookup_held hh
  obtain ⟨j, m', hrem, -, hnew⟩ := mapRem_spec hh hlive
  have hempty : update (contents (some h))
      (c.strAt pl (nameOf h.key) (c.nameToaddr.buckets idx).key) none = fun _ => none := by
    rw [habs, contents, update_idem]
    exact update_eq_self _ _
  have hdue : dnsTimeGeq now (c.addr 0).sockType = true := by
    rw [haddr]
    exact dnsTimeGeq_expired hexp htimely
  have hne : idx ≠ mapEnd c.nameToaddr := ne_of_lt hlive.1
  refine ⟨m', ?_, hempty ▸ hnew⟩
  rw [cacheGet, hname]
  dsimp only
  rw [hget]
  dsimp only
  rw [if_neg hne, hval, if_pos hdue, hrem]

theorem get_live (hexp : now < h.expiry) (hle : h.expiry ≤ now + 2 ^ 31) :
    cacheGet pl c fam hostname now =
      some (some { h.addr with sockType := toInt32 h.expiry }, c) := by
  obtain ⟨idx, hget, hlive, -, hval⟩ := lookup_held hh
  have hdue : ¬ dnsTimeGeq now (c.addr 0).sockType = true := by
    rw [haddr, Bool.not_eq_true]
    exact dnsTimeGeq_live hexp hle
  have hne : idx ≠ mapEnd c.nameToaddr := ne_of_lt hlive.1
  rw [cacheGet, hname]
  dsimp only
  rw [hget]
  dsimp only
  rw [if_neg hne, hval, if_neg hdue, haddr]

end

theorem get_other (hs : Inv pl s held) {fam : Fam}
    (hother : ∀ h, held = some h → h.key ≠ cacheKey fam host) :
    cacheGet pl s.cache fam host.text s.now = some (none, s.cache) := by
  rw [cacheGet, cacheName_host]
  dsimp only
  rw [lookup_other hs (zero_notMem_nameOf fam host) hother]
  exact if_pos rfl

theorem get_step (hs : Inv pl s held) {fam : Fam} (htimely : s.Timely (cacheKey fam host) s.now) :
    ∃ c', cacheGet pl s.cache fam host.text s.now =
        some (s.expected (cacheKey fam host) s.now, c') ∧
      ∃ held', Inv pl { s with cache := c' } held' := by
  by_cases hother : ∀ h, held = some h → h.key ≠ cacheKey fam host
  · exact ⟨s.cache, by rw [expected_other hs hother]; exact get_other hs hother, held, hs⟩
  · push Not at hother
    obtain ⟨h, rfl, hkey⟩ := hother
    obtain ⟨hnum, haddr, hlast, hle, -⟩ := hs.recorded
    have hname : cacheName fam host.text = some (nameOf h.key) := by rw [hkey, cacheName_host]
    have hh := hs.holds (nameOf h.key)
    rw [hkey] at hlast
    rw [Session.expected, hlast]
    by_cases hexp : s.now < h.expiry
    · refine ⟨s.cache, ?_, some h, hs⟩
      rw [get_live hh haddr hname hexp hle]
      simp [hexp]
    · obtain ⟨m', hget, hnew⟩ :=
        get_expired hh haddr hname (not_lt.1 hexp) (htimely _ hlast (not_lt.1 hexp))
      have hn : sizeSub s.cache.numAddr 1 = 0 := by
        rw [hnum]
        norm_num [sizeSub]
      refine ⟨_, ?_, none, hs.clear (not_lt.1 hexp) hnew hn⟩
      rw [hget]
      simp [hexp]

/-! ## One put -/

theorem addr_fill (h : c.addrs.length = DNS_HOSTS_MAXADDR) (addr : SockAddr)
    (ttl : UInt32) (now : Nat) :
    (c.fill 0 addr ttl now).addr 0 = { addr with sockType := toInt32 ((now + ttl.toNat : Nat)) } := by
  show (c.addrs.set 0 _).getD 0 SockAddr.zero = _
  rw [List.getD_eq_getElem?_getD, List.getElem?_set_self (by rw [h]; decide)]
  simp

theorem Inv.refill (hs : Inv pl s (some h)) (addr : SockAddr) (httl : ttl.toNat < 2 ^ 31) : Inv pl
      { s with
        cache := s.cache.fill 0 addr ttl s.now
        latest := update s.latest h.key (some (addr, s.now + ttl.toNat)) }
      (some { h with addr := addr, expiry := s.now + ttl.toNat }) := by
  obtain ⟨hnum, -, -, -, hsits⟩ := hs.recorded
  have hmem : s.cache.strAt pl [] (pl.ptr h.off) = strOf (nameOf h.key) :=
    strAt_text hs.store hsits.text (by rw [hsits.last, hsits.ends])
  refine ⟨hs.maxAddr, hs.store, (length_set).trans hs.addrs, ?_, ?_, hnum,
    addr_fill hs.addrs _ ttl _, ?_, ?_, ?_⟩
  · exact hsits.holds hs.store hmem (hs.holds []) rfl rfl
  · intro key addr' expiry hl hother
    have hk : key ≠ h.key := fun heq => hother _ rfl heq.symm
    have hold : s.latest key = some (addr', expiry) := (update_of_ne hk _ _).symm.trans hl
    refine hs.past key addr' expiry hold fun _ hh' => ?_
    rw [Option.some.injEq] at hh'
    exact hh' ▸ hk.symm
  · exact update_self _ _ _
  · show s.now + ttl.toNat ≤ s.now + 2 ^ 31
    omega
  · exact ⟨hsits.noNul, hsits.last, hsits.text, hsits.ends, fun i hi => hsits.keys i ⟨hi.1, hi.2⟩⟩

theorem freeAddr_first (hmax : c.maxAddr = DNS_HOSTS_MAXADDR)
    (haddrs : c.addrs.length = DNS_HOSTS_MAXADDR) (hfree : (c.addr 0).sockType = 0) :
    c.freeAddr = some 0 := by
  rw [Cache.freeAddr, hmax]
  cases hlist : c.addrs with
  | nil =>
    rw [hlist] at haddrs
    exact absurd haddrs (by decide)
  | cons a _ =>
    rw [Cache.addr, hlist] at hfree
    exact if_pos (decide_eq_true hfree)

theorem mapVal_one {name : Bytes} {m : Map Ptr Nat}
    (hm : Holds (c.inst pl name) (c.strAt pl name) m (contents (some h))) (idx : Nat) :
    mapVal (c.inst pl name) m idx = 0 := by
  unfold mapVal
  by_cases hlive : m.Live (c.inst pl name) idx
  · rw [if_pos hlive]
    have hsome := hm.rep.eq_some hlive rfl
    rw [contents, update_apply] at hsome
    split at hsome
    · exact (Option.some.inj hsome).symm
    · exact absurd hsome (by simp)
  · exact if_neg hlive

theorem copied_text (hs : Inv pl s held)
    (hroom : s.cache.storeLen + (nameOf key).length ≤ DNS_HOSTS_MAXSTORE)
    (hend : s.cache.store[s.cache.storeLen + (nameOf key).length]? = some 0) {c : Cache}
    (hc : c.store = (s.cache.copied (nameOf key)).store) (name : Bytes) :
    c.strAt pl name (pl.ptr s.cache.storeLen) = strOf (nameOf key) := by
  have hpos : s.cache.storeLen ≤ s.cache.store.length := by
    rw [hs.store]
    omega
  refine strAt_text ?_ ?_ ?_
  · rw [hc, ← hs.store]
    exact length_blit (by rw [hs.store]; exact hroom)
  · rw [hc]
    exact window_blit _ hpos
  · rw [hc]
    exact (getElem?_blit_behind hpos le_rfl).trans hend

/-- The session after a `cache_put`. -/
def Session.after (s : Session) (key : CacheKey) (addr : SockAddr) (ttl : UInt32)
    (r : Bool × Cache) : Session :=
  { s with
    cache := r.2
    latest :=
      if r.1 then update s.latest key (some (addr, s.now + ttl.toNat)) else s.latest }

/-- The map is given a name that was copied: it holds that name, unless there is no memory. -/
theorem mapPut_copied (hs : Inv pl s none)
    (hroom : s.cache.storeLen + (nameOf key).length ≤ DNS_HOSTS_MAXSTORE)
    (hend : s.cache.store[s.cache.storeLen + (nameOf key).length]? = some 0) (callocOk : Bool) :
    ∃ idx m', mapPut ((s.cache.copied (nameOf key)).inst pl (nameOf key))
        (s.cache.copied (nameOf key)).nameToaddr (pl.ptr s.cache.storeLen) 0 callocOk =
          some (idx, m') ∧
      ((idx = mapEnd m' ∧ m' = s.cache.nameToaddr ∧
          ¬ (s.cache.nameToaddr.isFixed = false ∧ callocOk = true)) ∨
        (idx ≠ mapEnd m' ∧ m'.Keys (s.cache.inst pl []) (· = pl.ptr s.cache.storeLen) ∧
          ∀ addr expiry, Holds ((s.cache.copied (nameOf key)).inst pl (nameOf key))
            ((s.cache.copied (nameOf key)).strAt pl (nameOf key)) m'
            (contents (some ⟨key, s.cache.storeLen, addr, expiry⟩)))) := by
  have hpos : 0 < (nameOf key).length := Nat.succ_pos _
  have hvalid := pl.ptr_valid (show s.cache.storeLen < DNS_HOSTS_MAXSTORE by omega)
  have hmem := copied_text hs hroom hend rfl (nameOf key)
  have hempty : Holds ((s.cache.copied (nameOf key)).inst pl (nameOf key))
      ((s.cache.copied (nameOf key)).strAt pl (nameOf key))
      (s.cache.copied (nameOf key)).nameToaddr fun _ => none := holds_nothing (hs.holds [])
  have hnone : ∀ i, ¬ s.cache.nameToaddr.Live (s.cache.inst pl []) i := fun i hi =>
    absurd ((hs.holds []).rep.eq_some hi rfl) (by simp [contents])
  have hzero : (s.cache.copied (nameOf key)).nameToaddr.size = 0 := by
    rw [hempty.size]
    simp [liveKeys]
  have hsan : sanitize ((s.cache.copied (nameOf key)).inst pl (nameOf key))
      (pl.ptr s.cache.storeLen) = pl.ptr s.cache.storeLen := if_neg hvalid.1
  have hfew : (s.cache.copied (nameOf key)).nameToaddr.size < 2 ^ 29 := by
    rw [hzero]
    decide
  obtain ⟨idx, m', hput, hres⟩ := mapPut_spec (instLaws _ _ _) hempty hfew hvalid 0 _
  have hkeys := mapPut_keys (P := (· = pl.ptr _))
    (fun i hi => absurd ⟨hi.1, hi.2⟩ (hnone i)) hsan hput
  refine ⟨idx, m', hput, ?_⟩
  rcases hres with ⟨hfull, hm⟩ | ⟨hidx, hnew⟩
  · refine .inl ⟨hfull, hm, fun hroom => ?_⟩
    obtain ⟨j, m'', hput', hlt, -⟩ :=
      mapPut_stores (instLaws _ _ _) hempty hfew hvalid 0 (.inr hroom)
    rw [hput, Option.some.injEq, Prod.mk.injEq] at hput'
    exact absurd (hput'.1 ▸ hput'.2 ▸ hlt) (hfull ▸ lt_irrefl _)
  · rw [hmem] at hnew
    exact .inr ⟨ne_of_lt hidx, fun i hi => hkeys i ⟨hi.1, hi.2⟩, fun _ _ => hnew⟩

/-- The cache after its first `cache_put`. -/
def Cache.stored (c : Cache) (name : Bytes) (m : Map Ptr Nat) (addr : SockAddr) (ttl : UInt32)
    (now : Nat) : Cache :=
  ((c.copied name).added name m).fill 0 addr ttl now

/-- A new name that is stored while the map is empty is the one that the map holds, whatever
lies elsewhere in the memory. Without memory for the map its bytes stay behind the store. -/
theorem putNew_cases (hs : Inv pl s none)
    (hroom : s.cache.storeLen + (nameOf key).length ≤ DNS_HOSTS_MAXSTORE)
    (hend : s.cache.store[s.cache.storeLen + (nameOf key).length]? = some 0) (addr : SockAddr)
    (ttl : UInt32) (callocOk : Bool) :
    (putNew pl s.cache (nameOf key) addr ttl s.now callocOk =
        some (false, s.cache.copied (nameOf key)) ∧
      ¬ (s.cache.nameToaddr.isFixed = false ∧ callocOk = true)) ∨
    ∃ m', putNew pl s.cache (nameOf key) addr ttl s.now callocOk =
        some (true, s.cache.stored (nameOf key) m' addr ttl s.now) ∧
      m'.Keys (s.cache.inst pl []) (· = pl.ptr s.cache.storeLen) ∧
      ∀ name, Holds ((s.cache.stored (nameOf key) m' addr ttl s.now).inst pl name)
        ((s.cache.stored (nameOf key) m' addr ttl s.now).strAt pl name) m'
        (contents (some ⟨key, s.cache.storeLen, addr, s.now + ttl.toNat⟩)) := by
  obtain ⟨-, hfirst⟩ := hs.recorded
  have hfree := freeAddr_first (c := s.cache.copied (nameOf key)) hs.maxAddr hs.addrs hfirst
  obtain ⟨idx, m', hput, hres⟩ := mapPut_copied hs hroom hend _
  rw [putNew, if_neg (not_lt.2 hroom), putCopied, hfree]
  dsimp only
  rw [hput]
  dsimp only
  rcases hres with ⟨hfull, rfl, hno⟩ | ⟨hne, hkeys, hone⟩
  · rw [if_pos hfull]
    exact .inl ⟨rfl, hno⟩
  · have hh := hone addr (s.now + ttl.toNat)
    rw [if_neg hne, mapVal_one hh]
    refine .inr ⟨m', rfl, hkeys, fun name => hh.remember fun i hi => ?_⟩
    show Cache.strAt _ pl name _ = Cache.strAt _ pl (nameOf key) _
    rw [hkeys i ⟨hi.1, hi.2⟩, copied_text hs hroom hend rfl]
    exact copied_text (c := s.cache.stored _ m' _ ttl _) hs hroom hend rfl name

/-- A new name that is stored while the map is empty is the one that the map holds. -/
theorem put_new (hs : Inv pl s none) (hnul : 0 ∉ nameOf key)
    (hroom : s.cache.storeLen + (nameOf key).length ≤ DNS_HOSTS_MAXSTORE)
    (hend : s.cache.store[s.cache.storeLen + (nameOf key).length]? = some 0) (addr : SockAddr)
    (httl : ttl.toNat < 2 ^ 31) (callocOk : Bool) :
    ∃ r, putNew pl s.cache (nameOf key) addr ttl s.now callocOk = some r ∧
      ∃ held', Inv pl (s.after key addr ttl r) held' := by
  obtain ⟨hnum, hfirst⟩ := hs.recorded
  have hpos : s.cache.storeLen ≤ s.cache.store.length := by
    rw [hs.store]
    omega
  have hsize : (s.cache.copied (nameOf key)).store.length = DNS_HOSTS_MAXSTORE :=
    (length_blit (by rw [hs.store]; exact hroom)).trans hs.store
  rcases putNew_cases hs hroom hend _ ttl _ with ⟨hput, -⟩ | ⟨m', hput, hkeys, hone⟩
  · exact ⟨_, hput, none, hs.maxAddr, hsize, hs.addrs, fun _ => holds_nothing (hs.holds []),
      hs.past, hnum, hfirst⟩
  · have hsits : Sits pl (s.cache.stored (nameOf key) m' addr ttl s.now)
        ⟨key, s.cache.storeLen, addr, s.now + ttl.toNat⟩ :=
      ⟨hnul, rfl, window_blit _ hpos, (getElem?_blit_behind hpos le_rfl).trans hend,
        fun i hi => hkeys i ⟨hi.1, hi.2⟩⟩
    refine ⟨_, hput, some ⟨key, s.cache.storeLen, addr, s.now + ttl.toNat⟩, hs.maxAddr, hsize,
      (length_set).trans hs.addrs, hone, ?_, ?_, addr_fill hs.addrs _ ttl _, ?_, ?_,
      hsits⟩
    · intro key' addr' expiry hl hother
      have hk : key' ≠ key := fun heq => hother _ rfl heq.symm
      have hold : s.latest key' = some (addr', expiry) := (update_of_ne hk _ _).symm.trans hl
      exact hs.past key' addr' expiry hold fun _ hh' => absurd hh' (by simp)
    · show s.cache.numAddr + 1 = 1
      rw [hnum]
    · exact update_self _ _ _
    · show s.now + ttl.toNat ≤ s.now + 2 ^ 31
      omega

/-- Some slot of the map has this name. -/
def Cache.Has (pl : Place) (c : Cache) (name : Bytes) : Prop :=
  ∃ i < c.nameToaddr.capacity, c.nameToaddr.Live (c.inst pl name) i ∧
    c.strAt pl name (c.nameToaddr.buckets i).key = strOf name

/-- A new name is stored only while the map is empty and where a zero byte follows. -/
def Session.Alone (pl : Place) (s : Session) (name : Bytes) : Prop :=
  s.cache.storeLen + name.length ≤ DNS_HOSTS_MAXSTORE → ¬ s.cache.Has pl name →
    mapSize s.cache.nameToaddr = 0 ∧ s.cache.store[s.cache.storeLen + name.length]? = some 0

variable (hs : Inv pl s held)
include hs

theorem not_has_other (hnul : 0 ∉ nameOf key) (hother : ∀ h, held = some h → h.key ≠ key) :
    ¬ s.cache.Has pl (nameOf key) := by
  rintro ⟨i, -, hlive, htext⟩
  have hsome := (hs.holds _).rep.eq_some hlive htext
  cases held with
  | none => exact absurd hsome (by simp [contents])
  | some h =>
    have hne : strOf (nameOf key) ≠ strOf (nameOf h.key) := fun heq =>
      hother h rfl (nameOf_inj (strOf_inj hs.recorded.2.2.2.2.noNul hnul heq.symm))
    rw [contents, update_of_ne hne] at hsome
    exact absurd hsome (by simp)

theorem held_of_size (hsize : mapSize s.cache.nameToaddr = 0) : held = none := by
  cases held with
  | none => rfl
  | some h =>
    obtain ⟨idx, hget, hlive, -⟩ := lookup_held (hs.holds _)
    rw [mapSize] at hsize
    rw [mapGet, if_pos hsize, Option.some.injEq] at hget
    exact absurd (hget ▸ hlive.1) (lt_irrefl _)

theorem put_step {fam : Fam} (addr : SockAddr)
    (halone : ttl ≠ 0 → ttl.toNat < 2 ^ 31 → s.Alone pl (nameOf (cacheKey fam host)))
    (callocOk : Bool) :
    ∃ r, cachePut pl s.cache fam host.text addr ttl s.now callocOk = some r ∧
      ∃ held', Inv pl (s.after (cacheKey fam host) addr ttl r) held' := by
  have hnul := zero_notMem_nameOf fam host
  have hfew : ¬ s.cache.numAddr ≥ s.cache.maxAddr := by
    have hmax : s.cache.maxAddr = 128 := hs.maxAddr
    cases held with
    | none =>
      have hnum := hs.recorded.1
      omega
    | some h =>
      have hnum := hs.recorded.1
      omega
  rw [cachePut, if_neg hfew]
  by_cases hbad : ttl = 0 ∨ ttl &&& 0x80000000 ≠ 0
  · rw [if_pos hbad]
    exact ⟨_, rfl, held, hs⟩
  · have httl : ttl.toNat < 2 ^ 31 := ttl_lt_iff.1 (not_not.1 (not_or.1 hbad).2)
    rw [if_neg hbad, cacheName_host]
    dsimp only
    by_cases hother : ∀ h, held = some h → h.key ≠ cacheKey fam host
    · rw [lookup_other hs hnul hother]
      dsimp only
      rw [if_pos rfl]
      by_cases hroom : s.cache.storeLen + (nameOf (cacheKey fam host)).length ≤ DNS_HOSTS_MAXSTORE
      · obtain ⟨hsize, hend⟩ := halone (not_or.1 hbad).1 httl hroom (not_has_other hs hnul hother)
        obtain rfl := held_of_size hs hsize
        exact put_new hs hnul hroom hend _ httl _
      · rw [putNew, if_pos (not_le.1 hroom)]
        exact ⟨_, rfl, held, hs⟩
    · push Not at hother
      obtain ⟨h, rfl, hkey⟩ := hother
      obtain ⟨idx, hget, hlive, -, hval⟩ := lookup_held (hs.holds _)
      have hne : idx ≠ mapEnd s.cache.nameToaddr := ne_of_lt hlive.1
      rw [← hkey, hget]
      dsimp only
      rw [if_neg hne, hval]
      exact ⟨_, rfl, _, hs.refill _ httl⟩

end

/-! ## Runs -/

/-- A put stores a new name only while the map is empty and where a zero byte follows, and a
get comes before the clock has come around since the name expired. -/
def Session.Clean (pl : Place) (s : Session) : Call → Prop
  | .get wait fam host => s.Timely (cacheKey fam host) (s.now + wait)
  | .put _ fam host _ ttl _ =>
    ttl ≠ 0 → ttl.toNat < 2 ^ 31 → s.Alone pl (nameOf (cacheKey fam host))

/-- At most one name is cached. -/
def OneName (pl : Place) (s : Session) : Prop := ∃ held, Inv pl s held

theorem clean_step {pl : Place} (s : Session) (op : Call) (hs : OneName pl s)
    (hclean : s.Clean pl op) : OneName pl (s.next pl op) ∧ s.Coherent pl op := by
  obtain ⟨held, hinv⟩ := hs
  cases op with
  | get wait fam host =>
    obtain ⟨c', hget, hnext⟩ := get_step (hinv.wait _) hclean
    have hcall : s.call pl (.get wait fam host) =
        some (s.expected (cacheKey fam host) (s.now + wait),
          { s with cache := c', now := s.now + wait }) := by
      exact congrArg (Option.map _) hget
    exact ⟨by rw [Session.next, hcall]; exact hnext, by rw [Session.Coherent, hcall]; rfl⟩
  | put wait fam host addr ttl callocOk =>
    obtain ⟨r, hput, hnext⟩ := put_step (hinv.wait _) _ hclean _
    have hcall : s.call pl (.put wait fam host addr ttl callocOk) =
        some (none, ({ s with now := s.now + wait }).after (cacheKey fam host) addr ttl r) := by
      exact congrArg (Option.map _) hput
    exact ⟨by rw [Session.next, hcall]; exact hnext, by rw [Session.Coherent, hcall]; rfl⟩

/-- Over every run of gets and puts that stores a new name only while the map is empty, every
call returns, and every get hands back the address of the last successful put for its name
until that has expired, and null otherwise. -/
theorem cache_coherent_of_clean (pl : Place) (now : Nat) (ops : List Call)
    (hclean : Runs.EveryStep (Session.next pl) (Session.Clean pl) (Session.start now) ops) :
    Runs.EveryStep (Session.next pl) (Session.Coherent pl) (Session.start now) ops :=
  Runs.everyStep_of_step (fun s op hs hop => (clean_step s op hs hop).1)
    (fun s op hs hop => (clean_step s op hs hop).2) ops _ ⟨none, inv_start pl now⟩ hclean

/-! ## Two names -/

/-- A place for the store and the buffer. -/
def samplePlace : Place :=
  { store := 0x10000, name := 0x80000
    store_pos := by decide
    store_end := by decide
    name_ptr := by constructor <;> decide
    apart := by decide }

/-- The host names `a` and `b`. -/
def hostA : HostName := ⟨[97], by decide, by decide⟩

def hostB : HostName := ⟨[98], by decide, by decide⟩

/-- An address of the host. -/
def sampleAddr (last : UInt8) : SockAddr :=
  { SockAddr.zero with
    sockType := SOCK_STREAM, len := SIZEOF_V4, family := .inet, sinAddr := net10 last }

/-- Two names one behind the other: a second after both were put for a minute, the first one
is not found, although its address was put and has not expired. -/
theorem second_put_hides_first :
    ((([.put 0 .ip4 hostA (sampleAddr 1) 60 true, .put 0 .ip4 hostB (sampleAddr 2) 60 true] :
        List Call).foldl (Session.next samplePlace) (Session.start 5)).call samplePlace
          (.get 1 .ip4 hostA)).map Prod.fst = some none ∧
      (([.put 0 .ip4 hostA (sampleAddr 1) 60 true, .put 0 .ip4 hostB (sampleAddr 2) 60 true] :
        List Call).foldl (Session.next samplePlace) (Session.start 5)).expected
          (cacheKey .ip4 hostA) 6 = some { sampleAddr 1 with sockType := 65 } := by
  constructor <;> decide +kernel

/-- A name that expires before the next one is put, and a get of each. -/
theorem cache_coherent_one_by_one :
    Runs.EveryStep (Session.next samplePlace) (Session.Coherent samplePlace) (Session.start 5)
      [.put 0 .ip4 hostA (sampleAddr 1) 60 true, .get 59 .ip4 hostA, .get 1 .ip4 hostA,
        .put 0 .ip6 hostB (sampleAddr 2) 60 true, .get 0 .ip6 hostB] := by
  refine cache_coherent_of_clean _ 5 _ ⟨?_, ?_, ?_, ?_, ?_, trivial⟩
  · exact fun _ _ _ _ => by constructor <;> decide +kernel
  · rw [Session.Clean, Session.Timely]
    decide +kernel
  · rw [Session.Clean, Session.Timely]
    decide +kernel
  · exact fun _ _ _ _ => by constructor <;> decide +kernel
  · rw [Session.Clean, Session.Timely]
    decide +kernel

end CDbK8s.Resolv
