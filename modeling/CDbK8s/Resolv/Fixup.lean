import CDbK8s.Lib.MirrorCopy
import CDbK8s.Resolv.Result

/-!
# The order of the results

`fixup_addrs` turns the IPv4 entries around behind the others. The loop reads an entry after it may
have been written to, which happens for the entries behind the middle of what is free for IPv4.
-/

namespace CDbK8s.Resolv

open Base Dns Lib.MirrorCopy List Function

variable {ins : List SockAddr} {res : Res}

/-! ## Insertion -/

/-- The entries that `res_add_ip` stores for an address, if there is room. -/
def Res.entriesOf (res : Res) (ip : Ip) : List SockAddr :=
  (if res.flags.tcp then [sockaddrLoad ip SOCK_STREAM res.tcpPort] else []) ++
    (if res.flags.udp then [sockaddrLoad ip SOCK_DGRAM res.udpPort] else [])

/-- The result after `res_add_ip` of each address. -/
def Res.addAll (res : Res) (ips : List Ip) : Res := ips.foldl (fun r ip => (resAddIp r ip).2) res

def SockAddr.isIp4 (sa : SockAddr) : Bool := sa.family = .inet

def SockAddr.isIp6 (sa : SockAddr) : Bool := sa.family = .inet6

/-- The IPv4 entries among the inserted ones. -/
def ip4s (ins : List SockAddr) : List SockAddr := ins.filter SockAddr.isIp4

/-- The IPv6 entries among the inserted ones. -/
def ip6s (ins : List SockAddr) : List SockAddr := ins.filter SockAddr.isIp6

/-- The array holds the inserted entries: the IPv6 entries from the front and the IPv4 entries
from the back. -/
structure Filled (res : Res) (ins : List SockAddr) : Prop where
  numIp4 : res.numIp4 = (ip4s ins).length
  numIp6 : res.numIp6 = (ip6s ins).length
  numAddr : res.numAddr = ins.length
  count : ins.length = (ip4s ins).length + (ip6s ins).length
  room : ins.length ≤ res.maxAddr
  front : ∀ i < (ip6s ins).length, (ip6s ins)[i]? = some (res.addrs i)
  back : ∀ i < (ip4s ins).length, (ip4s ins)[i]? = some (res.addrs (res.maxAddr - 1 - i))

/-- What the caller asked for is unchanged. -/
structure SameRequest (res res' : Res) : Prop where
  flags : res'.flags = res.flags
  tcpPort : res'.tcpPort = res.tcpPort
  udpPort : res'.udpPort = res.udpPort
  maxAddr : res'.maxAddr = res.maxAddr

theorem SameRequest.refl (res : Res) : SameRequest res res := ⟨rfl, rfl, rfl, rfl⟩

theorem SameRequest.trans {r1 r2 r3 : Res} (h : SameRequest r1 r2) (h' : SameRequest r2 r3) :
    SameRequest r1 r3 :=
  ⟨h'.flags.trans h.flags, h'.tcpPort.trans h.tcpPort, h'.udpPort.trans h.udpPort,
    h'.maxAddr.trans h.maxAddr⟩

section
variable {res : Res} {all : List SockAddr}

theorem take_append_of_lt {n : Nat} (h : all.length < n) (sa : SockAddr) :
    (all ++ [sa]).take n = all ++ [sa] :=
  take_of_length_le (by rw [length_append]; exact h)

theorem getElem?_push {addrs : Nat → SockAddr} (pos : Nat → Nat)
    (h : ∀ i < ins.length, ins[i]? = some (addrs (pos i)))
    (hpos : ∀ i < ins.length, pos i ≠ pos ins.length) (sa : SockAddr) :
    ∀ i < (ins ++ [sa]).length,
      (ins ++ [sa])[i]? = some (update addrs (pos ins.length) sa (pos i)) := by
  intro i hi
  rw [length_append, length_singleton] at hi
  by_cases hlast : i = ins.length
  · rw [hlast, update_self, List.getElem?_append_right le_rfl, Nat.sub_self]
    rfl
  · have hlt : i < ins.length := by omega
    rw [update_of_ne (hpos i hlt), List.getElem?_append_left hlt]
    exact h i hlt

theorem Filled.push4 (h : Filled res ins) (hroom : ins.length < res.maxAddr) {sa : SockAddr}
    (hsa : sa.family = .inet) :
    Filled
      { res with
        addrs := update res.addrs (res.maxAddr - res.numIp4 - 1) sa
        numIp4 := res.numIp4 + 1
        numAddr := res.numAddr + 1 }
      (ins ++ [sa]) := by
  have h4 : ip4s (ins ++ [sa]) = ip4s ins ++ [sa] := by
    simp [ip4s, SockAddr.isIp4, hsa]
  have h6 : ip6s (ins ++ [sa]) = ip6s ins := by
    simp [ip6s, SockAddr.isIp6, hsa]
  have hcount := h.count
  have hidx : res.maxAddr - res.numIp4 - 1 = res.maxAddr - 1 - (ip4s ins).length := by
    rw [h.numIp4]
    omega
  refine ⟨?_, ?_, ?_, ?_, ?_, ?_, ?_⟩
  · rw [h4, length_append, ← h.numIp4]
    rfl
  · rw [h6, ← h.numIp6]
  · rw [length_append, ← h.numAddr]
    rfl
  · rw [h4, h6, length_append, length_append, hcount]
    exact add_right_comm _ _ _
  · rw [length_append]
    exact hroom
  · intro i hi
    rw [h6] at hi ⊢
    show _ = some (update res.addrs _ sa i)
    rw [update_of_ne (by omega)]
    exact h.front i hi
  · rw [h4, hidx]
    exact getElem?_push _ h.back (fun i hi => by omega) sa

theorem Filled.push6 (h : Filled res ins) (hroom : ins.length < res.maxAddr) {sa : SockAddr}
    (hsa : sa.family = .inet6) :
    Filled
      { res with
        addrs := update res.addrs res.numIp6 sa
        numIp6 := res.numIp6 + 1
        numAddr := res.numAddr + 1 }
      (ins ++ [sa]) := by
  have h4 : ip4s (ins ++ [sa]) = ip4s ins := by
    simp [ip4s, SockAddr.isIp4, hsa]
  have h6 : ip6s (ins ++ [sa]) = ip6s ins ++ [sa] := by
    simp [ip6s, SockAddr.isIp6, hsa]
  have hcount := h.count
  have hnum := h.numIp6
  refine ⟨?_, ?_, ?_, ?_, ?_, ?_, ?_⟩
  · rw [h4, ← h.numIp4]
  · rw [h6, length_append, ← hnum]
    rfl
  · rw [length_append, ← h.numAddr]
    rfl
  · rw [h4, h6, length_append, length_append, hcount]
    exact add_assoc _ _ _
  · rw [length_append]
    exact hroom
  · rw [h6, hnum]
    exact getElem?_push (fun i => i) h.front (fun i hi => ne_of_lt hi) sa
  · intro i hi
    rw [h4] at hi ⊢
    show _ = some (update res.addrs _ sa (res.maxAddr - 1 - i))
    rw [update_of_ne (by omega)]
    exact h.back i hi

section
variable (h : Filled res (all.take res.maxAddr))
include h

theorem Filled.call (c : AddCall) :
    Filled (resAddCall res c).2 ((all ++ c.entry.toList).take res.maxAddr) ∧
      SameRequest res (resAddCall res c).2 := by
  have hlen : (all.take res.maxAddr).length = min res.maxAddr all.length := length_take
  unfold resAddCall
  by_cases hfull : resIsfull res = true
  · rw [if_pos hfull]
    rw [resIsfull, decide_eq_true_eq, h.numAddr] at hfull
    rw [take_append_of_le_length (by omega)]
    exact ⟨h, SameRequest.refl res⟩
  · rw [if_neg hfull]
    rw [resIsfull, decide_eq_true_eq, h.numAddr] at hfull
    have hall : all.take res.maxAddr = all := take_of_length_le (by omega)
    cases hip : c.ip with
    | none =>
      rw [AddCall.entry, hip]
      simpa using ⟨h, SameRequest.refl res⟩
    | some ip =>
      rw [AddCall.entry, hip]
      show Filled _ ((all ++ [_]).take _) ∧ _
      rw [take_append_of_lt (by omega)]
      rw [hall] at h
      cases ip with
      | v4 octets => exact ⟨h.push4 (by omega) rfl, rfl, rfl, rfl, rfl⟩
      | v6 octets => exact ⟨h.push6 (by omega) rfl, rfl, rfl, rfl, rfl⟩

theorem Filled.addPort (ip : Ip) (ptype : Proto) (port : Nat) :
    Filled (resAddIpPort res ip ptype port).2
        ((all ++ [sockaddrLoad ip ptype.sockType port]).take res.maxAddr) ∧
      SameRequest res (resAddIpPort res ip ptype port).2 :=
  h.call ⟨some ip, some ptype, port⟩

theorem Filled.addIf (ip : Ip) (wanted : Bool) (ptype : Proto) (port : Nat) :
    Filled (if wanted then resAddIpPort res ip ptype port else (-1, res)).2
        ((all ++ if wanted then [sockaddrLoad ip ptype.sockType port] else []).take res.maxAddr) ∧
      SameRequest res (if wanted then resAddIpPort res ip ptype port else (-1, res)).2 := by
  cases wanted with
  | true => exact h.addPort ip ptype port
  | false =>
    rw [if_neg (by decide), if_neg (by decide), append_nil]
    exact ⟨h, SameRequest.refl res⟩

theorem Filled.add (ip : Ip) :
    Filled (resAddIp res ip).2 ((all ++ res.entriesOf ip).take res.maxAddr) ∧
      SameRequest res (resAddIp res ip).2 := by
  obtain ⟨htcp, hsame⟩ := h.addIf ip res.flags.tcp .tcp res.tcpPort
  rw [← hsame.maxAddr] at htcp
  obtain ⟨hudp, hsame'⟩ := htcp.addIf ip res.flags.udp .udp res.udpPort
  rw [hsame.maxAddr, append_assoc] at hudp
  exact ⟨⟨hudp.numIp4, hudp.numIp6, hudp.numAddr, hudp.count, hudp.room, hudp.front, hudp.back⟩,
    hsame.trans ⟨hsame'.flags, hsame'.tcpPort, hsame'.udpPort, hsame'.maxAddr⟩⟩

end

theorem entriesOf_congr {res' : Res} (h : SameRequest res res') (ip : Ip) :
    res'.entriesOf ip = res.entriesOf ip := by
  simp [Res.entriesOf, h.flags, h.tcpPort, h.udpPort]

theorem Filled.addAll (ips : List Ip) : ∀ {res : Res} {all : List SockAddr},
    Filled res (all.take res.maxAddr) →
    Filled (res.addAll ips) ((all ++ ips.flatMap res.entriesOf).take res.maxAddr) ∧
      SameRequest res (res.addAll ips) := by
  induction ips with
  | nil =>
    intro res all h
    rw [flatMap_nil, append_nil]
    exact ⟨h, SameRequest.refl res⟩
  | cons ip ips ih =>
    intro res all h
    obtain ⟨hone, hsame⟩ := h.add ip
    rw [← hsame.maxAddr] at hone
    obtain ⟨hrest, hsame'⟩ := ih hone
    have hentries : (resAddIp res ip).2.entriesOf = res.entriesOf :=
      funext fun ip' => entriesOf_congr hsame ip'
    rw [hentries, hsame.maxAddr, append_assoc] at hrest
    exact ⟨hrest, hsame.trans hsame'⟩

end

/-- The entries that a sequence of calls leaves in an array that was empty. -/
def Res.inserted (res : Res) (ips : List Ip) : List SockAddr :=
  (ips.flatMap res.entriesOf).take res.maxAddr

theorem filled_empty (h4 : res.numIp4 = 0) (h6 : res.numIp6 = 0) (hnum : res.numAddr = 0) :
    Filled res [] :=
  ⟨h4, h6, hnum, rfl, zero_le, fun i hi => absurd hi (Nat.not_lt_zero i),
    fun i hi => absurd hi (Nat.not_lt_zero i)⟩

theorem filled_addAll (h4 : res.numIp4 = 0) (h6 : res.numIp6 = 0) (hnum : res.numAddr = 0)
    (ips : List Ip) :
    Filled (res.addAll ips) (res.inserted ips) ∧ SameRequest res (res.addAll ips) := by
  have hempty : Filled res (([] : List SockAddr).take res.maxAddr) := by
    rw [take_nil]
    exact filled_empty h4 h6 hnum
  exact Filled.addAll ips hempty

/-! ## Any calls -/

/-- `res'` comes after `res`: what is stored in the array stays, and what is not stored in `res'`
was not written to. -/
structure Later (res res' : Res) : Prop where
  maxAddr : res'.maxAddr = res.maxAddr
  numIp6 : res.numIp6 ≤ res'.numIp6
  numIp4 : res.numIp4 ≤ res'.numIp4
  stays : ∀ i, i < res.numIp6 ∨ res.maxAddr - res.numIp4 ≤ i → res'.addrs i = res.addrs i
  free : ∀ i, res'.numIp6 ≤ i → i < res'.maxAddr - res'.numIp4 → res'.addrs i = res.addrs i

theorem Later.refl (res : Res) : Later res res :=
  ⟨rfl, le_rfl, le_rfl, fun _ _ => rfl, fun _ _ _ => rfl⟩

theorem Later.trans {r1 r2 r3 : Res} (h : Later r1 r2) (h' : Later r2 r3) : Later r1 r3 := by
  have hmax := h.maxAddr
  have hmax' := h'.maxAddr
  have h6 := h.numIp6
  have h6' := h'.numIp6
  have h4 := h.numIp4
  have h4' := h'.numIp4
  refine ⟨hmax'.trans hmax, h6.trans h6', h4.trans h4', fun i hi => ?_, fun i hi hi' => ?_⟩
  · exact (h'.stays i (by omega)).trans (h.stays i hi)
  · exact (h'.free i hi hi').trans (h.free i (by omega) (by omega))

theorem Filled.call_later (h : Filled res ins) (c : AddCall) : Later res (resAddCall res c).2 := by
  have hcount := h.count
  have hnum := h.numAddr
  have h4 := h.numIp4
  have h6 := h.numIp6
  unfold resAddCall
  by_cases hfull : resIsfull res = true
  · rw [if_pos hfull]
    exact Later.refl res
  · rw [if_neg hfull]
    rw [resIsfull, decide_eq_true_eq] at hfull
    cases c.ip with
    | none => exact Later.refl res
    | some ip =>
      cases ip with
      | v4 octets =>
        refine ⟨rfl, le_rfl, Nat.le_succ _, fun i hi => update_of_ne (by omega) _ _,
          fun i hi hi' => update_of_ne ?_ _ _⟩
        have hlt : i < res.maxAddr - (res.numIp4 + 1) := hi'
        omega
      | v6 octets =>
        refine ⟨rfl, Nat.le_succ _, le_rfl, fun i hi => update_of_ne (by omega) _ _,
          fun i hi _ => update_of_ne ?_ _ _⟩
        have hlt : res.numIp6 + 1 ≤ i := hi
        omega

theorem Filled.calls (calls : List AddCall) : ∀ {res : Res} {all : List SockAddr},
    Filled res (all.take res.maxAddr) →
    Filled (res.afterCalls calls) ((all ++ calls.filterMap AddCall.entry).take res.maxAddr) ∧
      Later res (res.afterCalls calls) := by
  induction calls with
  | nil =>
    intro res all h
    rw [filterMap_nil, append_nil]
    exact ⟨h, Later.refl res⟩
  | cons c calls ih =>
    intro res all h
    obtain ⟨hone, hsame⟩ := h.call c
    rw [← hsame.maxAddr] at hone
    obtain ⟨hrest, hlater⟩ := ih hone
    have hcons : (c :: calls).filterMap AddCall.entry =
        c.entry.toList ++ calls.filterMap AddCall.entry := by
      cases hc : c.entry <;> simp [hc]
    rw [hsame.maxAddr, append_assoc, ← hcons] at hrest
    exact ⟨hrest, (h.call_later c).trans hlater⟩

/-- After any calls of `res_add_ip_port` on an array that was empty: the counters add up, the IPv6
entries are at the front in the order of insertion, the IPv4 entries at the back in reverse order,
the rest is as it was, and more calls leave what is stored. -/
theorem result_partition (flags : Flags) (host port : Bytes) (maxAddr : Nat) (addrs : Nat → SockAddr)
    (calls more : List AddCall) :
    let start := Res.start flags host port maxAddr addrs
    let res := start.afterCalls calls
    let ins := (calls.filterMap AddCall.entry).take maxAddr
    (res.numAddr = res.numIp4 + res.numIp6 ∧ res.numAddr ≤ maxAddr ∧ res.maxAddr = maxAddr) ∧
      (res.numIp6 = (ip6s ins).length ∧ ∀ i < res.numIp6, (ip6s ins)[i]? = some (res.addrs i)) ∧
      (res.numIp4 = (ip4s ins).length ∧
        ∀ i < res.numIp4, (ip4s ins)[i]? = some (res.addrs (maxAddr - 1 - i))) ∧
      (∀ i, res.numIp6 ≤ i → i < maxAddr - res.numIp4 → res.addrs i = addrs i) ∧
      ∀ i, i < res.numIp6 ∨ maxAddr - res.numIp4 ≤ i →
        (start.afterCalls (calls ++ more)).addrs i = res.addrs i := by
  intro start res _
  have hempty : Filled start (([] : List SockAddr).take start.maxAddr) := by
    rw [take_nil]
    exact filled_empty rfl rfl rfl
  obtain ⟨hfilled, hlater⟩ := Filled.calls calls hempty
  have hins : Filled res ((calls.filterMap AddCall.entry).take res.maxAddr) := by
    rw [hlater.maxAddr]
    exact hfilled
  have hmore := (Filled.calls more hins).2
  have hmax : res.maxAddr = maxAddr := hlater.maxAddr
  have hsplit : start.afterCalls (calls ++ more) = res.afterCalls more := foldl_append
  have hback := hfilled.back
  have hfree := hlater.free
  have hstays := hmore.stays
  rw [hmax] at hback hfree hstays
  rw [hsplit]
  refine ⟨⟨?_, ?_, hmax⟩, ⟨hfilled.numIp6, ?_⟩, ⟨hfilled.numIp4, ?_⟩, hfree, hstays⟩
  · rw [hfilled.numAddr, hfilled.count, hfilled.numIp4, hfilled.numIp6]
  · rw [hfilled.numAddr, ← hmax]
    exact hfilled.room
  · rw [hfilled.numIp6]
    exact hfilled.front
  · rw [hfilled.numIp4]
    exact hback

/-! ## The IPv4 entries -/

/-- `fixup_addrs` does not drop the IPv4 addresses. -/
def Res.KeepsIp4 (res : Res) : Prop :=
  res.numIp6 = 0 ∨ (res.flags.v4mapped = true ∧ res.flags.all = true)

/-- The entry `b` becomes the same when `a` was written over it. -/
def Alike (flags : Flags) (a b : SockAddr) : Prop :=
  if flags.v4mapped then a.sockType = b.sockType ∧ a.port = b.port ∧ b.sinAddr = zeros 4 else a = b

theorem mapped_inj {a b : Octets 4} (h : mapped a = mapped b) : a = b := by
  have hval : replicate 10 0 ++ [0xff, 0xff] ++ a.1 = replicate 10 0 ++ [0xff, 0xff] ++ b.1 :=
    congrArg Subtype.val h
  exact Subtype.ext (append_cancel_left hval)

theorem fixupEntry_twice (flags : Flags) (a b : SockAddr) :
    fixupEntry flags (fixupEntry flags a) = fixupEntry flags b ↔ Alike flags a b := by
  unfold fixupEntry Alike
  by_cases hmap : flags.v4mapped = true
  · simp only [hmap, if_true, SockAddr.mk.injEq, true_and]
    constructor
    · rintro ⟨htype, hport, haddr⟩
      exact ⟨htype, hport, (mapped_inj haddr).symm⟩
    · rintro ⟨htype, hport, haddr⟩
      exact ⟨htype, hport, by rw [haddr]⟩
  · simp [hmap]

theorem fixupDrop_keeps (h : res.KeepsIp4) : fixupDrop res = res := by
  refine if_neg ?_
  rintro ⟨hpos, hflags⟩
  rcases h with hzero | hboth
  · omega
  · exact hflags hboth

theorem fixupAddrs_keeps (h : res.KeepsIp4) : fixupAddrs res =
      { res with
        addrs := mirror (fixupEntry res.flags) res.numIp6 (res.maxAddr - 1) res.addrs res.numIp4 } := by
  unfold fixupAddrs
  rw [fixupDrop_keeps h]
  rfl

section
variable {res : Res} {ins : List SockAddr}

theorem Filled.fixed (h : Filled res ins) (hkeep : res.KeepsIp4) {j : Nat} {b : SockAddr}
    (hb : (ip4s ins)[j]? = some b) :
    (fixupAddrs res).addrs (res.numIp6 + j) = fixupEntry res.flags b ↔
      ∀ i a, i < j → res.numIp6 + i + j + 1 = res.maxAddr → (ip4s ins)[i]? = some a →
        Alike res.flags a b := by
  obtain ⟨hj, -⟩ := List.getElem?_eq_some_iff.1 hb
  have hcount := h.count
  have hroom := h.room
  have h4 := h.numIp4
  have h6 := h.numIp6
  have hsrc : res.addrs (res.maxAddr - 1 - j) = b := Option.some.inj ((h.back j hj).symm.trans hb)
  rw [fixupAddrs_keeps hkeep]
  show mirror _ _ _ _ _ _ = _ ↔ _
  rw [mirror_at (by omega) (by omega)]
  by_cases hover : res.maxAddr - 1 < res.numIp6 + 2 * j
  · -- the entry on the other side of the middle was written here before
    obtain ⟨i, hi⟩ : ∃ i, res.numIp6 + i + j + 1 = res.maxAddr :=
      ⟨res.maxAddr - 1 - res.numIp6 - j, by omega⟩
    have hidx : res.numIp6 + j = res.maxAddr - 1 - i := by omega
    have hother := h.back i (by omega)
    rw [if_pos hover, fixupEntry_twice, hidx]
    constructor
    · intro halike i' a hlt hsum ha
      have hsame : i' = i := by omega
      rw [hsame, hother, Option.some.injEq] at ha
      exact ha ▸ halike
    · intro hall
      exact hall i _ (by omega) hi hother
  · rw [if_neg hover, hsrc]
    refine ⟨fun _ i a hlt hsum _ => ?_, fun _ => rfl⟩
    omega

theorem Filled.fixed_front (h : Filled res ins) (hkeep : res.KeepsIp4) {i : Nat}
    (hi : i < (ip6s ins).length) : (ip6s ins)[i]? = some ((fixupAddrs res).addrs i) := by
  rw [fixupAddrs_keeps hkeep, h.front i hi]
  refine congrArg some (mirror_outside ?_).symm
  rw [h.numIp6]
  exact .inl hi

end

theorem map_range_eq_iff {α β : Type} (f : Nat → β) (g : α → β) (l : List α) :
    (range l.length).map f = l.map g ↔ ∀ j a, l[j]? = some a → f j = g a := by
  constructor
  · intro heq j a ha
    have hj := (List.getElem?_eq_some_iff.1 ha).1
    have hget := congrArg (·[j]?) heq
    simpa [List.getElem?_range hj, ha] using hget
  · intro hall
    refine ext_getElem (by simp) fun j hj hj' => ?_
    rw [length_map] at hj'
    simpa using hall j _ (List.getElem?_eq_getElem hj')

def Res.Empty (res : Res) : Prop := res.numIp4 = 0 ∧ res.numIp6 = 0 ∧ res.numAddr = 0

/-- The first `num_addr` entries. -/
def Res.entries (res : Res) : List SockAddr := (range res.numAddr).map res.addrs

/-- For every sequence of addresses whose IPv4 entries are kept, `fixup_addrs` leaves the IPv6
entries in the order of insertion and behind them the IPv4 entries in the order of insertion
exactly when each pair of IPv4 entries that meet in one place of the array is alike. -/
theorem fixup_in_order_iff (res : Res) (hempty : res.Empty) (ips : List Ip)
    (hkeep : ip6s (res.inserted ips) = [] ∨ (res.flags.v4mapped = true ∧ res.flags.all = true)) :
    (fixupAddrs (res.addAll ips)).entries =
        ip6s (res.inserted ips) ++ (ip4s (res.inserted ips)).map (fixupEntry res.flags) ↔
      ∀ i j a b, i < j → (ip6s (res.inserted ips)).length + i + j + 1 = res.maxAddr →
        (ip4s (res.inserted ips))[i]? = some a → (ip4s (res.inserted ips))[j]? = some b →
        Alike res.flags a b := by
  obtain ⟨hfill, hsame⟩ := filled_addAll hempty.1 hempty.2.1 hempty.2.2 ips
  have hkeeps : (res.addAll ips).KeepsIp4 := by
    rw [Res.KeepsIp4, hsame.flags, hfill.numIp6]
    exact hkeep.imp (fun h => by rw [h]; rfl) id
  have hnum : (fixupAddrs (res.addAll ips)).numAddr =
      (ip6s (res.inserted ips)).length + (ip4s (res.inserted ips)).length := by
    rw [fixupAddrs_keeps hkeeps]
    rw [hfill.numAddr, hfill.count, add_comm]
  have hfront : (range (ip6s (res.inserted ips)).length).map
      (fixupAddrs (res.addAll ips)).addrs = ip6s (res.inserted ips) := by
    have hiff := map_range_eq_iff (fixupAddrs (res.addAll ips)).addrs id (ip6s (res.inserted ips))
    rw [map_id] at hiff
    refine hiff.2 fun i a ha => ?_
    have hi := (List.getElem?_eq_some_iff.1 ha).1
    exact Option.some.inj ((hfill.fixed_front hkeeps hi).symm.trans ha)
  rw [Res.entries, hnum, range_add, map_append, hfront, append_cancel_left_eq,
    map_map, map_range_eq_iff]
  constructor
  · intro hall i j a b hlt hsum ha hb
    have hj := hall j b hb
    rw [← hsame.flags, Function.comp, ← hfill.numIp6, hfill.fixed hkeeps hb] at hj
    rw [← hsame.flags]
    exact hj i a hlt (by rw [hfill.numIp6, hsame.maxAddr]; exact hsum) ha
  · intro hall j b hb
    rw [← hsame.flags, Function.comp, ← hfill.numIp6, hfill.fixed hkeeps hb]
    intro i a hlt hsum ha
    rw [hfill.numIp6, hsame.maxAddr] at hsum
    rw [hsame.flags]
    exact hall i j a b hlt hsum ha hb

def twoIp4 : List Ip := [.v4 (net10 1), .v4 (net10 2)]

/-- A request for TCP addresses, with an array of `maxAddr` entries. -/
def tcpRes (maxAddr : Nat) : Res :=
  { Res.start ⟨true, false, true, true, false, false, false, false⟩ [] [] maxAddr
      fun _ => SockAddr.zero with
    tcpPort := 80 }

/-- In a full array of two IPv4 entries the first address is returned twice and the second one
is lost. -/
theorem fixup_repeats_address : (fixupAddrs ((tcpRes 2).addAll twoIp4)).entries =
        [sockaddrLoad (.v4 ⟨[10, 0, 0, 1], rfl⟩) SOCK_STREAM 80,
          sockaddrLoad (.v4 ⟨[10, 0, 0, 1], rfl⟩) SOCK_STREAM 80] ∧
      ip4s ((tcpRes 2).inserted twoIp4) = [sockaddrLoad (.v4 ⟨[10, 0, 0, 1], rfl⟩) SOCK_STREAM 80,
          sockaddrLoad (.v4 ⟨[10, 0, 0, 2], rfl⟩) SOCK_STREAM 80] := by
  decide +kernel

/-- With room to spare they are returned in order. -/
theorem fixup_in_order_three : (fixupAddrs ((tcpRes 3).addAll twoIp4)).entries =
      ip6s ((tcpRes 3).inserted twoIp4) ++
        (ip4s ((tcpRes 3).inserted twoIp4)).map (fixupEntry (tcpRes 3).flags) := by
  refine (fixup_in_order_iff _ ⟨rfl, rfl, rfl⟩ _ (.inl (by decide))).2 ?_
  intro i j a b _ _ _ hb
  have hj := (List.getElem?_eq_some_iff.1 hb).1
  have hlen : (ip4s ((tcpRes 3).inserted twoIp4)).length = 2 := by decide
  have hnone : (ip6s ((tcpRes 3).inserted twoIp4)).length = 0 := by decide
  have hmax : (tcpRes 3).maxAddr = 3 := rfl
  omega

end CDbK8s.Resolv
