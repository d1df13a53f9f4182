import CDbK8s.Dns.Message

/-!
# The array of results

`struct dns_result` of `dns_resolv.c`: the caller's array of socket addresses, filled from both
ends. IPv6 addresses go up from the front and IPv4 addresses down from the back; each address
is stored once for each socket type that was asked for. `fixup_addrs` moves the IPv4 addresses
behind the others, or drops them.

A socket address is a union. `sin_addr` of an IPv4 address lies where an IPv6 address has its
flow label, so both are one field here; the port is at the same place in both.
-/

namespace CDbK8s.Resolv

open Base Dns List Function

/-! ## Socket addresses -/

/-- `DNS_IPV4` or `DNS_IPV6`, where one of them is the type of an address. -/
inductive Fam where
  | ip4
  | ip6
deriving DecidableEq

/-- `DNS_TCP` or `DNS_UDP`, where one of them is the type of a port. -/
inductive Proto where
  | tcp
  | udp
deriving DecidableEq

/-- The type of an address and the bytes at `ip`. -/
inductive Ip where
  | v4 (octets : Octets 4)
  | v6 (octets : Octets 16)
deriving DecidableEq

/-- The octets of 10.0.0.`host`. -/
def net10 (host : UInt8) : Octets 4 := ⟨[10, 0, 0, host], rfl⟩

/-- The type of an address. -/
def Ip.fam : Ip → Fam
  | .v4 _ => .ip4
  | .v6 _ => .ip6

inductive SaFamily where
  | other
  | inet
  | inet6
deriving DecidableEq

def SOCK_STREAM : Int := 1

def SOCK_DGRAM : Int := 2

/-- `sizeof(struct sockaddr_in)`. -/
def SIZEOF_V4 : Nat := 16

/-- `sizeof(struct sockaddr_in6)`. -/
def SIZEOF_V6 : Nat := 28

/-- `struct dns_sockaddr`. The port is the number that the two bytes give in network order. -/
structure SockAddr where
  sockType : Int
  len : Nat
  family : SaFamily
  port : UInt16
  sinAddr : Octets 4
  sin6Addr : Octets 16
deriving DecidableEq

def zeros (n : Nat) : Octets n := ⟨replicate n 0, length_replicate⟩

def SockAddr.zero : SockAddr := ⟨0, 0, .other, 0, zeros 4, zeros 16⟩

/-- `SOCK_STREAM` or `SOCK_DGRAM`. -/
def Proto.sockType : Proto → Int
  | .tcp => SOCK_STREAM
  | .udp => SOCK_DGRAM

/-- `sockaddr_load`; `sockType` is 0 for an address that is for no port. -/
def sockaddrLoad (ip : Ip) (sockType : Int) (port : Nat) : SockAddr :=
  match ip with
  | .v4 octets => ⟨sockType, SIZEOF_V4, .inet, UInt16.ofNat port, octets, zeros 16⟩
  | .v6 octets => ⟨sockType, SIZEOF_V6, .inet6, UInt16.ofNat port, zeros 4, octets⟩

/-! ## The array -/

/-- The flags that the resolver looks at. -/
structure Flags where
  tcp : Bool
  udp : Bool
  ipv4 : Bool
  ipv6 : Bool
  passive : Bool
  numport : Bool
  v4mapped : Bool
  all : Bool
deriving DecidableEq

/-- `struct dns_result`. `given` is not part of the program: the families of the addresses that
`res_add_ip` was called with so far. -/
structure Res where
  flags : Flags
  host : Bytes
  port : Bytes
  udpPort : Nat
  tcpPort : Nat
  numIp4 : Nat
  numIp6 : Nat
  numAddr : Nat
  maxAddr : Nat
  addrs : Nat → SockAddr
  needIp4 : Bool
  needIp6 : Bool
  given : List Fam

/-- The result that `dns_resolv` starts with, for an array of `maxAddr` entries. -/
def Res.start (flags : Flags) (host port : Bytes) (maxAddr : Nat) (addrs : Nat → SockAddr) : Res :=
  { flags := flags, host := host, port := port, udpPort := 0, tcpPort := 0, numIp4 := 0,
    numIp6 := 0, numAddr := 0, maxAddr := maxAddr, addrs := addrs, needIp4 := false,
    needIp6 := false, given := [] }

def resIsfull (res : Res) : Bool := res.maxAddr ≤ res.numAddr

/-- The arguments of `res_add_ip_port`; `none` is any other type of address or port. -/
structure AddCall where
  ip : Option Ip
  ptype : Option Proto
  port : Nat

/-- The entry for a call, if the type of its address is known. -/
def AddCall.entry (c : AddCall) : Option SockAddr :=
  c.ip.map fun ip => sockaddrLoad ip (c.ptype.elim 0 Proto.sockType) c.port

/-- `res_add_ip_port`: the index where the address is stored. A full array gives 0. -/
def resAddCall (res : Res) (c : AddCall) : Int × Res :=
  if resIsfull res then (0, res)
  else
    match c.ip with
    | none => (-1, res)
    | some ip =>
      let sa := sockaddrLoad ip (c.ptype.elim 0 Proto.sockType) c.port
      match ip.fam with
      | .ip4 =>
        let idx := res.maxAddr - res.numIp4 - 1
        (idx, { res with
          addrs := update res.addrs idx sa, numIp4 := res.numIp4 + 1,
          numAddr := res.numAddr + 1 })
      | .ip6 =>
        let idx := res.numIp6
        (idx, { res with
          addrs := update res.addrs idx sa, numIp6 := res.numIp6 + 1,
          numAddr := res.numAddr + 1 })

/-- `res_add_ip_port` for the types that it knows. -/
def resAddIpPort (res : Res) (ip : Ip) (ptype : Proto) (port : Nat) : Int × Res :=
  resAddCall res ⟨some ip, some ptype, port⟩

/-- The result after some calls. -/
def Res.afterCalls (res : Res) (calls : List AddCall) : Res :=
  calls.foldl (fun r c => (resAddCall r c).2) res

/-- `res_add_ip`: one address for each socket type asked for. -/
def resAddIp (res : Res) (ip : Ip) : Int × Res :=
  let tcp := if res.flags.tcp then resAddIpPort res ip .tcp res.tcpPort else (-1, res)
  let udp := if res.flags.udp then resAddIpPort tcp.2 ip .udp res.udpPort else (-1, tcp.2)
  (if udp.1 ≠ -1 then udp.1 else tcp.1, { udp.2 with given := res.given ++ [ip.fam] })

/-- The address that `res_add_addr` takes from a socket address, if its length is right. -/
def SockAddr.ip (sa : SockAddr) : Option Ip :=
  match sa.family with
  | .inet => if sa.len = SIZEOF_V4 then some (.v4 sa.sinAddr) else none
  | .inet6 => if sa.len = SIZEOF_V6 then some (.v6 sa.sin6Addr) else none
  | .other => none

def resAddAddr (res : Res) (sa : SockAddr) : Int × Res :=
  match sa.ip with
  | some ip => resAddIp res ip
  | none => (-1, res)

/-- `::ffff:a.b.c.d`. -/
def mapped (ip4 : Octets 4) : Octets 16 :=
  ⟨replicate 10 0 ++ [0xff, 0xff] ++ ip4.1, by simp [ip4.2]⟩

/-- The entry that `fixup_addrs` makes of an IPv4 entry. -/
def fixupEntry (flags : Flags) (src : SockAddr) : SockAddr :=
  if flags.v4mapped then
    ⟨src.sockType, SIZEOF_V6, .inet6, src.port, zeros 4, mapped src.sinAddr⟩
  else src

/-- One round of the loop of `fixup_addrs`. The source may have been overwritten before. -/
def fixupStep (res : Res) (addrs : Nat → SockAddr) (i : Nat) : Nat → SockAddr :=
  update addrs (res.numIp6 + i) (fixupEntry res.flags (addrs (res.maxAddr - 1 - i)))

/-- IPv4 entries beside IPv6 entries are dropped unless both flags ask for them. -/
def fixupDrop (res : Res) : Res :=
  if 0 < res.numIp6 ∧ ¬ (res.flags.v4mapped ∧ res.flags.all) then
    { res with numAddr := res.numAddr - res.numIp4, numIp4 := 0 }
  else res

def fixupAddrs (res : Res) : Res :=
  let res := fixupDrop res
  { res with addrs := (range res.numIp4).foldl (fixupStep res) res.addrs }

/-! ## Adding an address -/

variable (res : Res) (ip : Ip)

theorem resAddIpPort_full {res : Res} (h : resIsfull res = true) (ptype : Proto) (port : Nat) :
    resAddIpPort res ip ptype port = (0, res) :=
  if_pos h

theorem resAddIpPort_numAddr (ptype : Proto) (port : Nat) :
    (resAddIpPort res ip ptype port).2.numAddr =
      if resIsfull res then res.numAddr else res.numAddr + 1 := by
  unfold resAddIpPort resAddCall
  split
  · rfl
  · cases ip with
    | v4 octets => rfl
    | v6 octets => rfl

theorem le_resAddIpPort_numAddr (ptype : Proto) (port : Nat) :
    res.numAddr ≤ (resAddIpPort res ip ptype port).2.numAddr := by
  rw [resAddIpPort_numAddr]
  split <;> omega

theorem resAddIp_keeps {P : Res → Prop}
    (hport : ∀ res ptype port, P res → P (resAddIpPort res ip ptype port).2)
    (hgiven : ∀ res given, P res → P { res with given }) (h : P res) : P (resAddIp res ip).2 := by
  have hpart : ∀ (asked : Bool) (res : Res) ptype port, P res →
      P (if asked then resAddIpPort res ip ptype port else (-1, res)).2 := by
    intro asked res ptype port hres
    cases asked with
    | false => exact hres
    | true => exact hport res ptype port hres
  exact hgiven _ _ (hpart _ _ _ _ (hpart _ _ _ _ h))

/-- The result after the part of `res_add_ip` for TCP. -/
def addTcp (res : Res) (ip : Ip) : Int × Res :=
  if res.flags.tcp then resAddIpPort res ip .tcp res.tcpPort else (-1, res)

theorem addTcp_numAddr_le_resAddIp : (addTcp res ip).2.numAddr ≤ (resAddIp res ip).2.numAddr := by
  show _ ≤ (if res.flags.udp then resAddIpPort (addTcp res ip).2 ip .udp res.udpPort
    else (-1, (addTcp res ip).2)).2.numAddr
  split
  · exact le_resAddIpPort_numAddr _ ip _ _
  · exact le_rfl

theorem le_resAddIp_numAddr : res.numAddr ≤ (resAddIp res ip).2.numAddr :=
  resAddIp_keeps res ip (P := fun r => res.numAddr ≤ r.numAddr)
    (fun r _ _ h => h.trans (le_resAddIpPort_numAddr r ip _ _)) (fun _ _ h => h) le_rfl

/-- One more address would be stored. -/
def Res.takes (res : Res) : Bool := !resIsfull res && (res.flags.tcp || res.flags.udp)

theorem lt_resAddIp_numAddr {res : Res} (h : res.takes = true) :
    res.numAddr < (resAddIp res ip).2.numAddr := by
  simp only [Res.takes, Bool.and_eq_true, Bool.not_eq_true', Bool.or_eq_true] at h
  obtain ⟨hroom, htype⟩ := h
  by_cases htcp : res.flags.tcp = true
  · refine lt_of_lt_of_le ?_ (addTcp_numAddr_le_resAddIp res ip)
    rw [addTcp, if_pos htcp, resAddIpPort_numAddr, hroom]
    exact Nat.lt_succ_self _
  · have hsame : (addTcp res ip).2 = res := by rw [addTcp, if_neg htcp]
    have hudp := htype.resolve_left htcp
    show _ < (if res.flags.udp then resAddIpPort (addTcp res ip).2 ip .udp res.udpPort
      else (-1, (addTcp res ip).2)).2.numAddr
    rw [if_pos hudp, hsame, resAddIpPort_numAddr, hroom]
    exact Nat.lt_succ_self _

theorem resAddIp_untyped {res : Res} (htcp : res.flags.tcp = false) (hudp : res.flags.udp = false) :
    resAddIp res ip = (-1, { res with given := res.given ++ [ip.fam] }) := by
  simp [resAddIp, htcp, hudp]

end CDbK8s.Resolv
