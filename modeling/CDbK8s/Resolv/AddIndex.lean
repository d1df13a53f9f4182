import CDbK8s.Resolv.Loop

/-!
# The index of a stored address

`res_add_ip` is to return where it stored an address, and -1 if it did not store it. For a full
array `res_add_ip_port` returns 0, which is the index of the first entry, and where both socket
types are asked for the array may become full between the two.

What `add_dnsans` puts in the cache is the entry at that index.
-/

namespace CDbK8s.Resolv

open Base Dns List Function

/-! ## One address -/

/-- The index of the outcome `r` is that of an entry with the address, and -1 if nothing was
stored in `res`. -/
def Reports (res : Res) (ip : Ip) (r : Int × Res) : Prop :=
  (r.1 ≠ -1 → (r.2.addrs r.1.toNat).ip = some ip) ∧ (r.2.numAddr = res.numAddr → r.1 = -1)

/-- How many socket types are asked for. -/
def Flags.types (flags : Flags) : Nat := flags.tcp.toNat + flags.udp.toNat

/-- Where `res_add_ip_port` stores an address of a family. -/
def Res.slot (res : Res) : Fam → Nat
  | .ip4 => res.maxAddr - res.numIp4 - 1
  | .ip6 => res.numIp6

/-- There is room for an entry of each type, or for the first of two, where the first entry of the
array is the one that is stored or has the address already. -/
def Res.HasRoom (res : Res) (ip : Ip) : Prop :=
  res.flags.types = 0 ∨ res.numAddr + res.flags.types ≤ res.maxAddr ∨
    (res.flags.types = 2 ∧ res.numAddr + 1 = res.maxAddr ∧
      (res.slot ip.fam = 0 ∨ (res.addrs 0).ip = some ip))

instance (res : Res) (ip : Ip) : Decidable (res.HasRoom ip) :=
  inferInstanceAs (Decidable (_ ∨ _ ∨ (_ ∧ _ ∧ (_ ∨ _))))

section
variable {res : Res} (ip : Ip)

theorem ip_sockaddrLoad (sockType : Int) (port : Nat) :
    (sockaddrLoad ip sockType port).ip = some ip := by
  cases ip with
  | v4 octets => rfl
  | v6 octets => rfl

theorem resIsfull_iff : resIsfull res = true ↔ res.maxAddr ≤ res.numAddr := decide_eq_true_iff

theorem resAddIpPort_room (h : ¬ resIsfull res = true) (ptype : Proto) (port : Nat) :
    (resAddIpPort res ip ptype port).1 = res.slot ip.fam ∧
      (resAddIpPort res ip ptype port).2.addrs =
        update res.addrs (res.slot ip.fam) (sockaddrLoad ip ptype.sockType port) ∧
      (resAddIpPort res ip ptype port).2.numAddr = res.numAddr + 1 ∧
      (resAddIpPort res ip ptype port).2.maxAddr = res.maxAddr := by
  unfold resAddIpPort resAddCall
  rw [if_neg h]
  cases ip with
  | v4 octets => exact ⟨rfl, rfl, rfl, rfl⟩
  | v6 octets => exact ⟨rfl, rfl, rfl, rfl⟩

theorem resAddIpPort_reports {before : Res} (hle : before.numAddr ≤ res.numAddr)
    (h : ¬ resIsfull res = true) (ptype : Proto) (port : Nat) :
    Reports before ip (resAddIpPort res ip ptype port) := by
  obtain ⟨hidx, haddrs, hnum, -⟩ := resAddIpPort_room ip h _ _
  refine ⟨fun _ => ?_, fun _ => ?_⟩
  · rw [hidx, haddrs, Int.toNat_natCast, update_self]
    exact ip_sockaddrLoad ip _ _
  · omega

theorem resAddIpPort_reports_iff (ptype : Proto) (port : Nat) :
    Reports res ip (resAddIpPort res ip ptype port) ↔ ¬ resIsfull res = true := by
  refine ⟨fun hright hfull => ?_, fun h => resAddIpPort_reports ip le_rfl h _ _⟩
  rw [resAddIpPort_full ip hfull] at hright
  exact absurd (hright.2 rfl) (show ¬ (0 : Int) = -1 by decide)

theorem resAddIpPort_ne (ptype : Proto) (port : Nat) : (resAddIpPort res ip ptype port).1 ≠ -1 := by
  by_cases hfull : resIsfull res = true
  · rw [resAddIpPort_full ip hfull]
    show (0 : Int) ≠ -1
    decide
  · rw [(resAddIpPort_room ip hfull ptype port).1]
    omega

theorem resAddIp_tcp (hudp : res.flags.udp = false) :
    Reports res ip (resAddIp res ip) ↔ Reports res ip (addTcp res ip) := by
  simp [resAddIp, hudp, Reports, addTcp]

theorem resAddIp_udp (hudp : res.flags.udp = true) : Reports res ip (resAddIp res ip) ↔
      Reports res ip (resAddIpPort (addTcp res ip).2 ip .udp res.udpPort) := by
  have hne : (resAddIpPort (if res.flags.tcp = true then resAddIpPort res ip .tcp res.tcpPort
      else (-1, res)).2 ip .udp res.udpPort).1 ≠ -1 := resAddIpPort_ne ip _ _
  simp [resAddIp, hudp, Reports, addTcp, hne]

theorem reports_last (h : ¬ resIsfull res = true) (hlast : res.numAddr + 1 = res.maxAddr)
    (port port' : Nat) :
    Reports res ip (resAddIpPort (resAddIpPort res ip .tcp port).2 ip .udp port') ↔
      res.slot ip.fam = 0 ∨ (res.addrs 0).ip = some ip := by
  obtain ⟨-, haddrs, hnum, hmax⟩ := resAddIpPort_room ip h _ _
  have hfull : resIsfull (resAddIpPort res ip .tcp port).2 = true := by
    rw [resIsfull_iff, hnum, hmax, hlast]
  rw [resAddIpPort_full ip hfull, Reports, hnum, haddrs]
  by_cases hslot : res.slot ip.fam = 0
  · rw [hslot]
    simp [ip_sockaddrLoad]
  · have hother : (0 : Nat) ≠ res.slot ip.fam := fun h0 => hslot h0.symm
    simp [update_of_ne hother, hslot]

end

/-- The index that `res_add_ip` returns is right exactly when there is room. -/
theorem reports_iff (res : Res) (ip : Ip) : Reports res ip (resAddIp res ip) ↔ res.HasRoom ip := by
  have hfull : resIsfull res = true ↔ res.maxAddr ≤ res.numAddr := resIsfull_iff
  cases htcp : res.flags.tcp with
  | false =>
    have hsame : (addTcp res ip).2 = res := by rw [addTcp, htcp]; rfl
    cases hudp : res.flags.udp with
    | false =>
      rw [resAddIp_untyped ip htcp hudp]
      simp [Reports, Res.HasRoom, Flags.types, htcp, hudp]
    | true =>
      rw [resAddIp_udp ip hudp, hsame, resAddIpPort_reports_iff, hfull]
      simp only [Res.HasRoom, Flags.types, htcp, hudp, Bool.toNat_true, Bool.toNat_false]
      omega
  | true =>
    have htcp' : addTcp res ip = resAddIpPort res ip .tcp res.tcpPort := by rw [addTcp, if_pos htcp]
    cases hudp : res.flags.udp with
    | false =>
      rw [resAddIp_tcp ip hudp, htcp', resAddIpPort_reports_iff, hfull]
      simp only [Res.HasRoom, Flags.types, htcp, hudp, Bool.toNat_true, Bool.toNat_false]
      omega
    | true =>
      have htypes : res.flags.types = 2 := by rw [Flags.types, htcp, hudp]; rfl
      rw [resAddIp_udp ip hudp, htcp', Res.HasRoom, htypes]
      -- The array is full, becomes full with the first entry, or has room for both.
      by_cases h : resIsfull res = true
      · rw [resAddIpPort_full ip h, resAddIpPort_reports_iff]
        have hle := hfull.1 h
        exact ⟨fun hroom => absurd h hroom, fun hroom => by omega⟩
      · obtain ⟨-, -, hnum, hmax⟩ := resAddIpPort_room ip h .tcp res.tcpPort
        rw [hfull] at h
        by_cases hlast : res.numAddr + 1 = res.maxAddr
        · rw [reports_last ip (hfull.not.2 h) hlast]
          constructor
          · exact fun hheld => .inr (.inr ⟨rfl, hlast, hheld⟩)
          · rintro (h2 | hle | ⟨-, -, hheld⟩)
            · omega
            · omega
            · exact hheld
        · have hroom : ¬ resIsfull (resAddIpPort res ip .tcp res.tcpPort).2 = true := by
            rw [resIsfull_iff]
            omega
          have hle : res.numAddr ≤ (resAddIpPort res ip .tcp res.tcpPort).2.numAddr := by omega
          refine ⟨fun _ => .inr (.inl (by omega)), fun _ => ?_⟩
          exact resAddIpPort_reports ip hle hroom _ _

/-! ## The addresses of an answer -/

/-- The entries are counted, and there is room for them. -/
structure Res.Counted (res : Res) : Prop where
  count : res.numAddr = res.numIp4 + res.numIp6
  room : res.numAddr ≤ res.maxAddr

theorem counted_start (flags : Flags) (host port : Bytes) (maxAddr : Nat)
    (addrs : Nat → SockAddr) : (Res.start flags host port maxAddr addrs).Counted :=
  ⟨rfl, zero_le⟩

/-- The first IPv6 address, if any, is good. -/
def Res.FrontGood (good : SockAddr → Prop) (res : Res) : Prop :=
  res.numIp6 = 0 ∨ good (res.addrs 0)

/-- What storing an entry changes. -/
structure Res.Stores (good : SockAddr → Prop) (res res' : Res) : Prop where
  counted : res'.Counted
  numAddr : res'.numAddr = res.numAddr + 1
  maxAddr : res'.maxAddr = res.maxAddr
  flags : res'.flags = res.flags
  front : res'.FrontGood good ↔ res.FrontGood good

section
variable {res : Res} {good : SockAddr → Prop} {ip : Ip}

theorem resAddIpPort_stores (hcount : res.Counted) (h : ¬ resIsfull res = true)
    (hgood : ∀ sa : SockAddr, sa.ip = some ip → good sa) (ptype : Proto) (port : Nat) :
    res.Stores good (resAddIpPort res ip ptype port).2 := by
  have hnew := hgood _ (ip_sockaddrLoad ip ptype.sockType port)
  obtain ⟨hsum, -⟩ := hcount
  rw [resIsfull_iff] at h
  unfold resAddIpPort resAddCall
  rw [if_neg (resIsfull_iff.not.2 h)]
  cases ip with
  | v4 octets =>
    refine ⟨⟨?_, ?_⟩, rfl, rfl, rfl, ?_⟩
    · show res.numAddr + 1 = res.numIp4 + 1 + res.numIp6
      omega
    · show res.numAddr + 1 ≤ res.maxAddr
      omega
    · refine or_congr_right' fun hfront => ?_
      have hne : (0 : Nat) ≠ res.maxAddr - res.numIp4 - 1 := by
        have hpos : ¬ res.numIp6 = 0 := hfront
        omega
      show good (update res.addrs _ _ 0) ↔ _
      rw [update_of_ne hne]
  | v6 octets =>
    refine ⟨⟨?_, ?_⟩, rfl, rfl, rfl, ?_⟩
    · show res.numAddr + 1 = res.numIp4 + (res.numIp6 + 1)
      omega
    · show res.numAddr + 1 ≤ res.maxAddr
      omega
    · by_cases hzero : res.numIp6 = 0
      · refine ⟨fun _ => .inl hzero, fun _ => .inr ?_⟩
        rw [hzero]
        exact hnew
      · have hne : (0 : Nat) ≠ res.numIp6 := fun h0 => hzero h0.symm
        show res.numIp6 + 1 = 0 ∨ good (update res.addrs res.numIp6 _ 0) ↔ _
        rw [update_of_ne hne, Res.FrontGood]
        simp [hzero]

theorem resAddIpPort_flags (ptype : Proto) (port : Nat) :
    (resAddIpPort res ip ptype port).2.flags = res.flags := by
  unfold resAddIpPort resAddCall
  split
  · rfl
  · cases ip with
    | v4 octets => rfl
    | v6 octets => rfl

theorem resAddIp_flags : (resAddIp res ip).2.flags = res.flags :=
  resAddIp_keeps res ip (P := fun r => r.flags = res.flags)
    (fun _ _ _ h => (resAddIpPort_flags _ _).trans h) (fun _ _ h => h) rfl

theorem resAddIpPort_counted (hcount : res.Counted) (ptype : Proto) (port : Nat) :
    (resAddIpPort res ip ptype port).2.Counted := by
  by_cases h : resIsfull res = true
  · rw [resAddIpPort_full ip h]
    exact hcount
  · have hstores : res.Stores (fun _ => True) (resAddIpPort res ip ptype port).2 :=
      resAddIpPort_stores hcount h (fun _ _ => trivial) _ _
    exact hstores.counted

theorem resAddIp_counted (hcount : res.Counted) : (resAddIp res ip).2.Counted :=
  resAddIp_keeps res ip (fun _ _ _ h => resAddIpPort_counted h _ _)
    (fun _ _ h => ⟨h.count, h.room⟩) hcount

variable (htcp : res.flags.tcp = true) (hudp : res.flags.udp = true)
include htcp hudp

theorem resAddIp_two (hcount : res.Counted) (hroom : res.numAddr + 2 ≤ res.maxAddr)
    (hgood : ∀ sa : SockAddr, sa.ip = some ip → good sa) :
    (resAddIp res ip).2.numAddr = res.numAddr + 2 ∧ (resAddIp res ip).2.maxAddr = res.maxAddr ∧
      ((resAddIp res ip).2.FrontGood good ↔ res.FrontGood good) := by
  have hfirst := resAddIpPort_stores hcount (resIsfull_iff.not.2 (by omega)) hgood .tcp res.tcpPort
  have hfull : ¬ resIsfull (resAddIpPort res ip .tcp res.tcpPort).2 = true := by
    rw [resIsfull_iff, hfirst.numAddr, hfirst.maxAddr]
    omega
  have hsecond := resAddIpPort_stores hfirst.counted hfull hgood .udp res.udpPort
  simp only [resAddIp, if_pos htcp, if_pos hudp]
  refine ⟨?_, ?_, ?_⟩
  · rw [hsecond.numAddr, hfirst.numAddr]
  · rw [hsecond.maxAddr, hfirst.maxAddr]
  · exact hsecond.front.trans hfirst.front

/-- Both types, with room for one: the first entry is what the index says. -/
theorem resAddIp_one (hcount : res.Counted) (hlast : res.numAddr + 1 = res.maxAddr)
    (hgood : ∀ sa : SockAddr, sa.ip = some ip → good sa) :
    (resAddIp res ip).1 = 0 ∧ resIsfull (resAddIp res ip).2 = true ∧
      (good ((resAddIp res ip).2.addrs 0) ↔ res.FrontGood good) := by
  have hroom : ¬ resIsfull res = true := resIsfull_iff.not.2 (by omega)
  have hfirst := resAddIpPort_stores hcount hroom hgood .tcp res.tcpPort
  have hfull : resIsfull (resAddIpPort res ip .tcp res.tcpPort).2 = true := by
    rw [resIsfull_iff, hfirst.numAddr, hfirst.maxAddr]
    omega
  simp only [resAddIp, if_pos htcp, if_pos hudp, resAddIpPort_full ip hfull]
  refine ⟨if_pos (by decide), hfull, ?_⟩
  rw [← hfirst.front]
  refine ⟨.inr, fun h => h.elim (fun hnone => ?_) id⟩
  -- Without IPv6 entries the one that was stored is the first of the array.
  obtain ⟨-, haddrs, -⟩ := resAddIpPort_room ip hroom .tcp res.tcpPort
  have hslot : res.slot ip.fam = 0 := by
    have hsum' := hfirst.counted.count
    rw [hfirst.numAddr] at hsum'
    cases ip with
    | v4 octets =>
      have hip4 : (resAddIpPort res (.v4 octets) .tcp res.tcpPort).2.numIp4 = res.numIp4 + 1 := by
        rw [resAddIpPort, resAddCall, if_neg hroom]
        rfl
      show res.maxAddr - res.numIp4 - 1 = 0
      omega
    | v6 octets =>
      rw [resAddIpPort, resAddCall, if_neg hroom] at hnone
      exact absurd hnone (Nat.succ_ne_zero _)
  rw [haddrs, hslot]
  exact hgood _ (ip_sockaddrLoad ip _ _)

end

/-- One `cache_put`. -/
structure Put where
  fam : Fam
  name : Bytes
  addr : SockAddr
  ttl : UInt32
deriving DecidableEq

/-- A cache that remembers every `cache_put`. -/
def recorder : CacheApi (List Put) where
  get := fun puts _ _ => (none, puts)
  put := fun puts fam name addr ttl => puts ++ [⟨fam, name, addr, ttl⟩]

/-- What `add_dnsans` puts in the cache. -/
def cachedBy (ov : Overlay) (ns : Ns (List Put)) : List Put :=
  (addDnsans recorder ov ns).glob.cache.drop ns.glob.cache.length

/-- A socket address with the address of one of the records. -/
def Answers (ov : Overlay) (rrs : List Rr) (sa : SockAddr) : Prop :=
  ∃ rr ∈ rrs, ∃ ip, rrIp ov rr = some ip ∧ sa.ip = some ip

def addrCount (ov : Overlay) (rrs : List Rr) : Nat := rrs.countP fun rr => (rrIp ov rr).isSome

/-- The array does not become full between the two entries of an address, or the first entry is
good. -/
def Res.Fits (good : SockAddr → Prop) (res : Res) (count : Nat) : Prop :=
  res.flags.types ≠ 2 ∨ (res.maxAddr - res.numAddr) % 2 = 0 ∨
    2 * count < res.maxAddr - res.numAddr ∨ res.FrontGood good

section
variable {ov : Overlay} {ns : Ns (List Put)} {rr : Rr} {ip : Ip} {good : SockAddr → Prop}

theorem addAnswer_ip (ns : Ns (List Put)) (h : rrIp ov rr = some ip) :
    (addAnswer recorder ov ns rr).res = (resAddIp ns.res ip).2 ∧
      (addAnswer recorder ov ns rr).glob.cache =
        ns.glob.cache ++ if (resAddIp ns.res ip).1 ≠ -1 then
          [⟨ip.fam, ns.name, (resAddIp ns.res ip).2.addrs (resAddIp ns.res ip).1.toNat, rr.ttl⟩]
        else [] := by
  simp only [addAnswer, h]
  split
  · cases ip with
    | v4 octets => exact ⟨rfl, rfl⟩
    | v6 octets => exact ⟨rfl, rfl⟩
  · exact ⟨rfl, (append_nil _).symm⟩

/-- What one record with an address adds to the cache, and what it leaves for the next. -/
theorem addAnswer_fits (hcount : ns.res.Counted) (hroom : ¬ resIsfull ns.res = true)
    (h : rrIp ov rr = some ip) (hgood : ∀ sa : SockAddr, sa.ip = some ip → good sa) (n : Nat) :
    ∃ new, (addAnswer recorder ov ns rr).glob.cache = ns.glob.cache ++ new ∧
      ((∀ p ∈ new, good p.addr) ∧ (addAnswer recorder ov ns rr).res.Fits good n ↔
        ns.res.Fits good (n + 1)) := by
  obtain ⟨hres, hcache⟩ := addAnswer_ip ns h
  refine ⟨_, hcache, ?_⟩
  rw [hres]
  have hreports := reports_iff ns.res ip
  rw [resIsfull_iff] at hroom
  -- Where the index is right the entry at it is good.
  have hright : ns.res.HasRoom ip → ∀ p ∈ (if (resAddIp ns.res ip).1 ≠ -1 then
      [(⟨ip.fam, ns.name, (resAddIp ns.res ip).2.addrs (resAddIp ns.res ip).1.toNat,
        rr.ttl⟩ : Put)] else []), good p.addr := by
    intro hhas p hp
    split at hp
    · next hne =>
        rw [mem_singleton.1 hp]
        exact hgood _ ((hreports.2 hhas).1 hne)
    · exact absurd hp not_mem_nil
  by_cases htypes : ns.res.flags.types = 2
  · obtain ⟨htcp, hudp⟩ : ns.res.flags.tcp = true ∧ ns.res.flags.udp = true := by
      revert htypes
      rw [Flags.types]
      cases ns.res.flags.tcp <;> cases ns.res.flags.udp <;> decide
    by_cases hlast : ns.res.numAddr + 1 = ns.res.maxAddr
    · obtain ⟨hidx, hfull, hfront⟩ := resAddIp_one htcp hudp hcount hlast hgood
      have hzero : (0 : Int) ≠ -1 := by decide
      rw [resIsfull_iff] at hfull
      rw [hidx, if_pos hzero, forall_mem_singleton]
      show good ((resAddIp ns.res ip).2.addrs 0) ∧ _ ↔ _
      rw [hfront, Res.Fits, Res.Fits, htypes]
      have heven : ((resAddIp ns.res ip).2.maxAddr - (resAddIp ns.res ip).2.numAddr) % 2 = 0 := by
        omega
      refine ⟨fun hg => .inr (.inr (.inr hg.1)), fun hfits => ⟨?_, .inr (.inl heven)⟩⟩
      rcases hfits with h2 | hmod | hlt | hg
      · exact absurd rfl h2
      · omega
      · omega
      · exact hg
    · obtain ⟨hnum, hmax, hfront⟩ := resAddIp_two htcp hudp hcount (by omega) hgood
      have hhas : ns.res.HasRoom ip := .inr (.inl (by omega))
      rw [Res.Fits, resAddIp_flags, hfront]
      refine ⟨fun hg => ?_, fun hfits => ⟨hright hhas, ?_⟩⟩
      · refine hg.2.imp id (Or.imp ?_ (Or.imp ?_ id)) <;> omega
      · refine hfits.imp id (Or.imp ?_ (Or.imp ?_ id)) <;> omega
  · have hhas : ns.res.HasRoom ip := by
      have hle : ns.res.flags.types ≤ 2 := by
        rw [Flags.types]
        cases ns.res.flags.tcp <;> cases ns.res.flags.udp <;> decide
      rw [Res.HasRoom]
      omega
    exact ⟨fun _ => .inl htypes, fun _ => ⟨hright hhas, .inl (by rwa [resAddIp_flags])⟩⟩

/-- The loop caches good addresses only exactly when the array does not become full between the
two entries of an address, or its first entry is good. -/
theorem addAnswers_fits (rrs : List Rr) :
    ∀ ns : Ns (List Put), ns.res.Counted → (∀ sa, Answers ov rrs sa → good sa) →
      ∃ new, (addAnswers recorder ov ns rrs).glob.cache = ns.glob.cache ++ new ∧
        ((∀ p ∈ new, good p.addr) ↔ ns.res.Fits good (addrCount ov rrs)) := by
  induction rrs with
  | nil =>
    intro ns _ _
    refine ⟨[], (append_nil _).symm, fun _ => ?_, fun _ p hp => absurd hp not_mem_nil⟩
    show _ ∨ _ ∨ 2 * 0 < _ ∨ _
    omega
  | cons rr rrs ih =>
    intro ns hcount hgood
    have hrest : ∀ sa, Answers ov rrs sa → good sa := fun sa hsa => by
      obtain ⟨rr', hmem, ip, hip, hheld⟩ := hsa
      exact hgood sa ⟨rr', .tail _ hmem, ip, hip, hheld⟩
    by_cases hfull : resIsfull ns.res = true
    · rw [addAnswers, if_pos hfull]
      rw [resIsfull_iff] at hfull
      refine ⟨[], (append_nil _).symm, fun _ => .inr (.inl ?_), fun _ p hp => absurd hp not_mem_nil⟩
      omega
    · rw [addAnswers, if_neg hfull]
      cases hip : rrIp ov rr with
      | none =>
        have hskip : addAnswer recorder ov ns rr = ns := by rw [addAnswer, hip]
        have hsame : addrCount ov (rr :: rrs) = addrCount ov rrs :=
          countP_cons_of_neg (by rw [hip]; decide)
        rw [hskip, hsame]
        exact ih ns hcount hrest
      | some ip =>
        have hmore : addrCount ov (rr :: rrs) = addrCount ov rrs + 1 :=
          countP_cons_of_pos (by rw [hip]; rfl)
        have hcount' : (addAnswer recorder ov ns rr).res.Counted := by
          rw [(addAnswer_ip _ hip).1]
          exact resAddIp_counted hcount
        obtain ⟨first, hfirst, hiff⟩ := addAnswer_fits hcount hfull hip
          (fun sa hheld => hgood sa ⟨rr, mem_cons_self, ip, hip, hheld⟩) _
        obtain ⟨new, hnew, hiff'⟩ := ih _ hcount' hrest
        refine ⟨first ++ new, by rw [hnew, hfirst, append_assoc], ?_⟩
        rw [forall_mem_append, hiff', hmore]
        exact hiff

end

/-- For every result and every address the index that `res_add_ip` returns is right exactly when
there is room for an entry of each type, up to the one case where the wrong index is that of a
right entry. And `add_dnsans` caches addresses of its answer only exactly when the array does not
become full between the two entries of an address, or its first entry has an address of the
answer. -/
theorem stored_index_iff (res : Res) (ip : Ip) (ov : Overlay) (ns : Ns (List Put))
    (hcount : ns.res.Counted) :
    (Reports res ip (resAddIp res ip) ↔ res.HasRoom ip) ∧
      ((∀ p ∈ cachedBy ov ns, Answers ov ns.msg.an.recs p.addr) ↔
        ns.res.Fits (Answers ov ns.msg.an.recs) (addrCount ov ns.msg.an.recs)) := by
  refine ⟨reports_iff res ip, ?_⟩
  obtain ⟨new, hnew, hiff⟩ := addAnswers_fits _ { ns with haveAns := true } hcount fun _ h => h
  have hcached : cachedBy ov ns = new := by
    rw [cachedBy, addDnsans, hnew]
    exact drop_left
  rw [hcached]
  exact hiff

/-- The address `::1`. -/
def loopback6 : Ip := .v6 ⟨[0, 0, 0, 0, 0, 0, 0, 0, 0, 0, 0, 0, 0, 0, 0, 1], rfl⟩

/-- A request for both socket types, with an array of `maxAddr` entries that has `::1`. -/
def besideIp6 (maxAddr : Nat) : Res :=
  (resAddIp (Res.start ⟨true, true, true, true, false, false, false, false⟩ [] [] maxAddr
    fun _ => SockAddr.zero) loopback6).2

/-- A nameserver that answered with the address 10.0.0.1. -/
def ip4Answer (maxAddr : Nat) : Ns (List Put) :=
  { Ns.start [97] false (besideIp6 maxAddr) ⟨[], 7, 0⟩ with
    msg := { Msg.zero with
      an := ⟨fun _ => ⟨none, DNS_TYPE_A, 1, 60, 4, .a (net10 1)⟩, 1⟩ } }

/-- With room for one of two entries the index is that of another address, of another family, which
is then cached as the IPv4 address of the name. -/
theorem stored_index_other : (resAddIp (besideIp6 3) (.v4 ⟨[10, 0, 0, 1], rfl⟩)).1 = 0 ∧
      ((resAddIp (besideIp6 3) (.v4 ⟨[10, 0, 0, 1], rfl⟩)).2.addrs 0).ip = some loopback6 ∧
      (cachedBy Overlay.plain (ip4Answer 3)).map (fun p => (p.fam, p.name, p.addr.ip)) =
        [(.ip4, [97], some loopback6)] := by
  decide +kernel

theorem counted_besideIp6 (maxAddr : Nat) : (besideIp6 maxAddr).Counted :=
  resAddIp_counted (counted_start _ _ _ _ _)

/-- With room for both the index is right, and so is what is cached. -/
theorem stored_index_four : (besideIp6 4).HasRoom (.v4 ⟨[10, 0, 0, 1], rfl⟩) ∧
      Reports (besideIp6 4) (.v4 ⟨[10, 0, 0, 1], rfl⟩)
        (resAddIp (besideIp6 4) (.v4 ⟨[10, 0, 0, 1], rfl⟩)) ∧
      ∀ p ∈ cachedBy Overlay.plain (ip4Answer 4),
        Answers Overlay.plain (ip4Answer 4).msg.an.recs p.addr := by
  have hroom : (besideIp6 4).HasRoom (.v4 ⟨[10, 0, 0, 1], rfl⟩) := by decide
  have hright := stored_index_iff (besideIp6 4) (.v4 ⟨[10, 0, 0, 1], rfl⟩) Overlay.plain
    (ip4Answer 4) (counted_besideIp6 4)
  exact ⟨hroom, hright.1.2 hroom, hright.2.2 (.inr (.inl (by decide)))⟩

end CDbK8s.Resolv
