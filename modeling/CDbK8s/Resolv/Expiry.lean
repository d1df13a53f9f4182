import CDbK8s.Resolv.CacheCoherence

/-!
# When an address expires

The clock of the cache is cut to 32 bits, and so is the second at which an entry expires. The
difference of the two is compared in the window of `DNS_TIME_GEQ`, which is large enough for all
TTLs that `cache_put` takes. The milliseconds of `get_now_ms` have 63 bits, which a
clock of seconds of 64 bits can exceed.
-/

namespace CDbK8s.Resolv

open Base Dns Hashmap Lib.NodeMap

/-- A put with a TTL of 31 bits, and a name that fits the buffer, stores the name. -/
def Taken (hostname : Bytes) (ttl : UInt32) : Prop :=
  1 ≤ ttl.toNat ∧ ttl.toNat < 2 ^ 31 ∧ hostname.length ≤ 254

instance (hostname : Bytes) (ttl : UInt32) : Decidable (Taken hostname ttl) :=
  inferInstanceAs (Decidable (_ ∧ _))

/-- A get gives the address back, and the cache stays as it is. -/
def Kept (pl : Place) (c : Cache) (fam : Fam) (hostname : Bytes) (sa : SockAddr) (now : Int) :
    Prop :=
  cacheGet pl c fam hostname now = some (some sa, c)

/-- A get finds nothing, takes the entry out, and counts it. -/
def Dropped (pl : Place) (c : Cache) (fam : Fam) (hostname : Bytes) (now : Int) : Prop :=
  ∃ c', cacheGet pl c fam hostname now = some (none, c') ∧
    mapSize c.nameToaddr = 1 ∧ mapSize c'.nameToaddr = 0 ∧ c'.numAddr + 1 = c.numAddr

variable {pl : Place} {fam : Fam} {hostname : Bytes} {addr : SockAddr} {ttl : UInt32} {t : Nat}
  {callocOk : Bool}

theorem put_fresh (pl : Place) (fam : Fam) (hostname : Bytes) (addr : SockAddr) (ttl : UInt32)
    (t : Int) (callocOk : Bool) :
    cachePut pl initCache fam hostname addr ttl t callocOk = if Taken hostname ttl then
        putNew pl initCache (nameOf (fam, hostname.map lower)) addr ttl t callocOk
      else some (false, initCache) := by
  have hfew : ¬ initCache.numAddr ≥ initCache.maxAddr := by decide
  have hzero : ttl = 0 ↔ ttl.toNat = 0 := UInt32.toNat_inj.symm
  rw [cachePut, if_neg hfew]
  by_cases hbad : ttl = 0 ∨ ttl &&& 0x80000000 ≠ 0
  · rw [if_pos hbad, if_neg]
    rw [Ne, ttl_lt_iff, hzero] at hbad
    rintro ⟨hlow, hhigh, -⟩
    omega
  · rw [if_neg hbad, cacheName]
    rw [Ne, ttl_lt_iff, hzero] at hbad
    by_cases hlen : hostname.length + 1 > DNS_HOSTS_MAXNAME - 1
    · rw [if_pos hlen, if_neg]
      rintro ⟨-, -, hfit⟩
      exact absurd hlen (by simp only [DNS_HOSTS_MAXNAME]; omega)
    · rw [if_neg hlen, if_pos]
      · rfl
      · rw [DNS_HOSTS_MAXNAME] at hlen
        exact ⟨by omega, by omega, by omega⟩

/-- The cache holds exactly this entry. -/
structure HoldsOne (pl : Place) (c : Cache) (h : Held) : Prop where
  num : c.numAddr = 1
  addr : c.addr 0 = { h.addr with sockType := toInt32 h.expiry }
  holds : Holds (c.inst pl (nameOf h.key)) (c.strAt pl (nameOf h.key)) c.nameToaddr
    (contents (some h))

theorem put_stored (htaken : Taken hostname ttl) (callocOk : Bool) :
    ∃ r, cachePut pl initCache fam hostname addr ttl t callocOk = some r ∧
      (callocOk = true → r.1 = true) ∧
      (r.1 = true → HoldsOne pl r.2 ⟨(fam, hostname.map lower), 0, addr, t + ttl.toNat⟩) := by
  have hs := inv_start pl t
  have hlen : (nameOf (fam, hostname.map lower)).length ≤ 255 := by
    have hfit := htaken.2.2
    simp [nameOf]
    omega
  have hroom : 0 + (nameOf (fam, hostname.map lower)).length ≤ DNS_HOSTS_MAXSTORE := by
    rw [DNS_HOSTS_MAXSTORE]
    omega
  have hend : initCache.store[0 + (nameOf (fam, hostname.map lower)).length]? = some 0 :=
    List.getElem?_replicate_of_lt (by rw [DNS_HOSTS_MAXSTORE]; omega)
  rw [put_fresh, if_pos htaken]
  rcases putNew_cases hs hroom hend _ ttl _ with ⟨hput, hno⟩ | ⟨m', hput, -, hone⟩
  · exact ⟨_, hput, fun hok => absurd ⟨rfl, hok⟩ hno, fun hok => absurd hok Bool.false_ne_true⟩
  · exact ⟨_, hput, fun _ => rfl, fun _ => ⟨rfl, addr_fill hs.addrs _ ttl t, hone _⟩⟩

theorem cacheName_taken (htaken : Taken hostname ttl) :
    cacheName fam hostname = some (nameOf (fam, hostname.map lower)) := by
  have hfit := htaken.2.2
  exact if_neg (by simp only [DNS_HOSTS_MAXNAME]; omega)

theorem taken_of_put {c : Cache}
    (h : cachePut pl initCache fam hostname addr ttl t callocOk = some (true, c)) :
    Taken hostname ttl := by
  by_contra hno
  rw [put_fresh, if_neg hno] at h
  simp at h

theorem size_one {h : Held} {c : Cache} (hone : HoldsOne pl c h) : mapSize c.nameToaddr = 1 := by
  have hlive : liveKeys (contents (some h)) = {strOf (nameOf h.key)} := by
    ext s
    by_cases hs : s = strOf (nameOf h.key)
    · simp [liveKeys, contents, hs]
    · simp [liveKeys, contents, hs]
  simp [mapSize, hone.holds.size, hlive]

theorem nowSecs_eq {sec nsec : Nat} (h : sec * 1000 + nsec / 1000000 < 2 ^ 63)
    (hnsec : nsec < 1000000000) : nowSecs sec nsec = sec := by
  have hms : getNowMs sec nsec = (sec * 1000 + nsec / 1000000 : Nat) := by
    rw [getNowMs]
    omega
  have hdiv : (sec * 1000 + nsec / 1000000) / 1000 = sec := by omega
  rw [nowSecs, hms]
  exact (Int.ofNat_tdiv _ 1000).symm.trans (congrArg _ hdiv)

/-- The seconds matter up to `2 ^ 32`. -/
theorem cacheGet_mod {c : Cache} {now now' : Int} (h : now % 2 ^ 32 = now' % 2 ^ 32) :
    cacheGet pl c fam hostname now = cacheGet pl c fam hostname now' := by
  have hgeq : dnsTimeGeq now = dnsTimeGeq now' := by
    funext sockType
    rw [dnsTimeGeq, h, dnsTimeGeq]
  rw [cacheGet, hgeq, cacheGet]

/-- A put at `t` to a fresh cache is accepted for the TTLs from 1 to `2 ^ 31 - 1`, and a get at
a later second `t'`, less than `2 ^ 31` after it, hands the address back exactly if less than
the TTL has passed; otherwise the entry is removed. The milliseconds of the two times are below
`2 ^ 63`. -/
theorem expiry_exact (pl : Place) (t nsec : Nat) (hnsec : nsec < 1000000000)
    (ht : t * 1000 + nsec / 1000000 < 2 ^ 63) (fam : Fam) (hostname : Bytes) (addr : SockAddr)
    (ttl : UInt32) :
    ((∃ callocOk c, cachePut pl initCache fam hostname addr ttl (nowSecs t nsec) callocOk =
        some (true, c)) ↔ Taken hostname ttl) ∧
    ∀ callocOk c, cachePut pl initCache fam hostname addr ttl (nowSecs t nsec) callocOk =
        some (true, c) →
      ∀ t' nsec', t ≤ t' → t' < t + 2 ^ 31 → nsec' < 1000000000 →
        t' * 1000 + nsec' / 1000000 < 2 ^ 63 → if t' - t < ttl.toNat then
          Kept pl c fam hostname { addr with sockType := toInt32 (t + ttl.toNat : Nat) }
            (nowSecs t' nsec')
        else Dropped pl c fam hostname (nowSecs t' nsec') := by
  rw [nowSecs_eq ht hnsec]
  refine ⟨⟨?_, fun htaken => ?_⟩, fun callocOk c hput t' nsec' _ _ hnsec' ht' => ?_⟩
  · rintro ⟨callocOk, c, hput⟩
    exact taken_of_put hput
  · obtain ⟨⟨ok, c⟩, hput, hok, -⟩ := @put_stored pl fam _ _ _ t htaken true
    exact ⟨true, c, hput.trans (by rw [show ok = true from hok rfl])⟩
  · rw [nowSecs_eq ht' hnsec']
    have htaken := taken_of_put hput
    obtain ⟨r, hput', -, hone⟩ := put_stored htaken _
    obtain rfl : (true, c) = r := Option.some.inj (hput.symm.trans hput')
    obtain ⟨hnum, haddr, hh⟩ := hone rfl
    have hname : cacheName fam hostname = _ := cacheName_taken htaken
    have hmax := htaken.2.1
    by_cases hlive : t' - t < ttl.toNat
    · rw [if_pos hlive]
      have hexp : t' < t + ttl.toNat := by omega
      have hwin : t + ttl.toNat ≤ t' + 2 ^ 31 := by omega
      have hget := get_live hh haddr hname hexp hwin
      exact hget
    · rw [if_neg hlive]
      have hexp : t + ttl.toNat ≤ t' := by omega
      have hwin : (t' - (t + ttl.toNat)) % 2 ^ 32 < 2 ^ 31 := by omega
      obtain ⟨m', hget, hnew⟩ := get_expired hh haddr hname hexp hwin
      refine ⟨_, hget, size_one (hone rfl), ?_, ?_⟩
      · rw [mapSize, hnew.size]
        simp [liveKeys]
      · rw [hnum]
        norm_num [sizeSub]

/-- The name `a`, put for ten seconds in the first second, is there in the sixth and dropped in
the eleventh. -/
theorem expiry_after_boot : ∃ callocOk c, cachePut samplePlace initCache .ip4 [97] (sampleAddr 1) 10
      (nowSecs 0 0) callocOk = some (true, c) ∧
    Kept samplePlace c .ip4 [97] { sampleAddr 1 with sockType := 10 } (nowSecs 5 0) ∧
    Dropped samplePlace c .ip4 [97] (nowSecs 10 0) := by
  obtain ⟨hput, hget⟩ := expiry_exact samplePlace 0 0 (by decide) (by decide) .ip4 [97]
    (sampleAddr 1) 10
  obtain ⟨callocOk, c, hc⟩ := hput.2 (by decide)
  have hkept := hget callocOk c hc 5 0 (by decide) (by decide) (by decide) (by decide)
  have hdropped := hget callocOk c hc 10 0 (by decide) (by decide) (by decide) (by decide)
  have hexp : toInt32 ((0 + (10 : UInt32).toNat : Nat)) = 10 := by decide
  rw [if_pos (by decide), hexp] at hkept
  rw [if_neg (by decide)] at hdropped
  exact ⟨callocOk, c, hc, hkept, hdropped⟩

/-- An address put in the last second before the milliseconds run over is still handed back
100 seconds later, though its TTL is ten. -/
theorem clock_runs_over : ∃ c, cachePut samplePlace initCache .ip4 [97] (sampleAddr 1) 10
      (nowSecs 9223372036854775 0) true = some (true, c) ∧
    ¬ Dropped samplePlace c .ip4 [97] (nowSecs 9223372036854875 0) := by
  have htaken : Taken [97] 10 := by decide
  obtain ⟨⟨ok, c⟩, hput, hok, hone⟩ :=
    @put_stored samplePlace .ip4 [97] (sampleAddr 1) 10 9223372036854775 htaken true
  obtain rfl : ok = true := hok rfl
  obtain ⟨-, haddr, hh⟩ := hone rfl
  refine ⟨c, hput, ?_⟩
  rintro ⟨c', hget, -⟩
  -- the clock shows a second before the expiry
  have hexp : 9223370765544556 < 9223372036854775 + (10 : UInt32).toNat := by decide
  have hlive := get_live hh haddr (cacheName_taken htaken) hexp (by decide)
  rw [cacheGet_mod (show nowSecs 9223372036854875 0 % 2 ^ 32 = (9223370765544556 : Nat) % 2 ^ 32 by
    decide), hlive] at hget
  simp at hget

end CDbK8s.Resolv
