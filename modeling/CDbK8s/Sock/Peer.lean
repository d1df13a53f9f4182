import CDbK8s.Inet.Numbers
import CDbK8s.Resolv.Result

/-!
# The address of a peer as text

`sock_addr_load` and `sock_addr_tostr` of `sock.c`. The union of `struct sock_addr` has a member
`u32` that is an array of four bytes, so storing an IPv4 address in its first element keeps one
byte of it. An IPv6 address is printed with `IP6_STR_STRIPV4`, which strips the zeros of an
IPv4-compatible address as well as an IPv4-mapped prefix.
-/

namespace CDbK8s.Sock

open Base Inet Resolv List

/-! ## The functions -/

/-- `addr->type`. -/
inductive PeerType where
  | none
  | ipv4
  | ipv6
deriving DecidableEq

/-- `struct sock_addr`: the port as it is stored, and the bytes of the union. -/
structure PeerAddr where
  type : PeerType
  port : UInt16
  ip : Bytes

/-- `__builtin_bswap16`. -/
def bswap16 (x : UInt16) : UInt16 := UInt16.ofNat (x.toNat % 256 * 256 + x.toNat / 256)

/-- `s_addr`, which is stored with the first byte of the address lowest. -/
def sAddr (octets : Bytes) : Nat := octets.foldr (fun b v => b.toNat + 256 * v) 0

/-- `sock_addr_load`. The port of `sa` is its number, which is stored in network order. -/
def sockAddrLoad (sa : SockAddr) : PeerAddr :=
  match sa.family with
  | .inet =>
    if sa.len ≠ SIZEOF_V4 then ⟨.none, 0, replicate 16 0⟩
    else ⟨.ipv4, bswap16 sa.port, UInt8.ofNat (sAddr sa.sinAddr.1) :: replicate 15 0⟩
  | .inet6 =>
    if sa.len ≠ SIZEOF_V6 then ⟨.none, 0, replicate 16 0⟩
    else ⟨.ipv6, bswap16 sa.port, sa.sin6Addr.1⟩
  | .other => ⟨.none, 0, replicate 16 0⟩

def IP_ADDRPORT_STRLEN : Nat := 54

/-- `':'` and the port, behind what an encoder returned the length of. -/
def withPort (r : Nat × Bytes) (port : UInt16) : Bytes :=
  r.2.take r.1 ++ [58] ++ uint16Toa (bswap16 port).toNat

/-- `sock_addr_tostr`, which is `sock_tostr` for a socket. -/
def sockAddrTostr (addr : PeerAddr) : Bytes :=
  match addr.type with
  | .ipv4 => withPort (ip4StrEncode (addr.ip.take 4) IP_ADDRPORT_STRLEN) addr.port
  | .ipv6 =>
    withPort (ip6StrEncode addr.ip (IP6_STR_ADDBRACK ||| IP6_STR_STRIPV4) IP_ADDRPORT_STRLEN) addr.port
  | .none => [60, 110, 117, 108, 108, 62]

/-! ## What is to be shown -/

/-- The text of an IPv6 address in brackets, or of the IPv4 address that is mapped to it. -/
def ShownIp6 (addr text : Bytes) : Prop :=
  Mapped addr ∧ text = quadText (addr.drop 12) ∨
    ¬ Mapped addr ∧ ∃ t, (Canonical addr t ∨ t = dottedText addr) ∧ text = [91] ++ t ++ [93]

/-- The IP address of `sa` and its port in decimal. -/
def Shown (sa : SockAddr) (text : Bytes) : Prop :=
  ∃ ip, text = ip ++ [58] ++ decText sa.port.toNat ∧
    (sa.family = .inet ∧ ip = quadText sa.sinAddr.1 ∨ sa.family = .inet6 ∧ ShownIp6 sa.sin6Addr.1 ip)

/-! ## What is shown -/

theorem bswap16_bswap16 (x : UInt16) : bswap16 (bswap16 x) = x := by
  have hswap : ∀ y : UInt16, (bswap16 y).toNat = y.toNat % 256 * 256 + y.toNat / 256 := by
    intro y
    have hlt := y.toNat_lt
    rw [bswap16, UInt16.toNat_ofNat', Nat.mod_eq_of_lt (by omega)]
  have hlt := x.toNat_lt
  apply UInt16.toNat_inj.1
  rw [hswap, hswap]
  omega

theorem withPort_eq {r : Nat × Bytes} {text : Bytes} (h : r = (text.length, text)) (port : UInt16) :
    withPort r (bswap16 port) = text ++ [58] ++ decText port.toNat := by
  simp [withPort, h, bswap16_bswap16, uint16Toa_decText port.toNat_lt]

theorem shown_iff {sa : SockAddr} {text : Bytes} :
    Shown sa (text ++ [58] ++ decText sa.port.toNat) ↔
      sa.family = .inet ∧ text = quadText sa.sinAddr.1 ∨
        sa.family = .inet6 ∧ ShownIp6 sa.sin6Addr.1 text := by
  constructor
  · rintro ⟨ip, htext, h⟩
    rw [append_cancel_right (append_cancel_right htext)]
    exact h
  · exact fun h => ⟨text, rfl, h⟩

section
variable {addr : Bytes}

theorem ip4StrEncode_eq (haddr : addr.length = 4) : ip4StrEncode addr IP_ADDRPORT_STRLEN =
    ((quadText addr).length, quadText addr) := by
  have htext := ip4StrEncode_text haddr (show IP4_ADDR_STRLEN ≤ IP_ADDRPORT_STRLEN by decide)
  match addr, haddr with
  | [a, b, c, d], _ =>
    rw [ip4StrEncode_quad (by decide)] at htext ⊢
    rw [← htext]

theorem quadText_inj {addr' : Bytes} (h : addr.length = 4) (h' : addr'.length = 4)
    (heq : quadText addr = quadText addr') : addr = addr' := by
  have hread : ∀ x : Bytes, x.length = 4 → (ip4StrDecode (quadText x)).2 = x := by
    intro x hx
    rw [← ip4StrEncode_text hx (le_refl _)]
    match x, hx with
    | [a, b, c, d], _ =>
      rw [ip4StrEncode_quad le_rfl, ip4StrDecode_quad rfl (by simp [uint8Toa_octet])
        (uint8Toa_octet d).1]
      simp [octetBytes, uint8Toa_octet]
  rw [← hread addr h, heq, hread addr' h']

theorem quadText_ne_bracket (haddr : addr.length = 4) (rest : Bytes) : quadText addr ≠ 91 :: rest := by
  match addr, haddr with
  | [a, b, c, d], _ =>
    intro heq
    obtain ⟨ch, ds, hds⟩ := exists_cons_of_ne_nil (uint8Toa_octet a).1.nonempty
    have hdec := (uint8Toa_octet a).1.digits ch (by rw [hds]; exact mem_cons_self)
    rw [← ip4StrEncode_text rfl (le_refl _), ip4StrEncode_quad le_rfl, dottedOctets, hds] at heq
    cases heq
    exact absurd hdec (by decide)

theorem encode_stripped (haddr : addr.length = 16) (h : Mapped addr ∨ Compatible addr) :
    ip6StrEncode addr (IP6_STR_ADDBRACK ||| IP6_STR_STRIPV4) IP_ADDRPORT_STRLEN =
      ((quadText (addr.drop 12)).length, quadText (addr.drop 12)) := by
  rw [← ip4StrEncode_eq (by rw [length_drop, haddr])]
  unfold ip6StrEncode isDotted
  dsimp only
  rcases h with h | h
  · rw [h.zeroScan_eq.1, h.zeroScan_eq.2, h.2.1, h.2.2]
    rfl
  · rw [h.zeroScan_eq.1, h.zeroScan_eq.2]
    rfl

theorem encode_bracketed (haddr : addr.length = 16) (hm : ¬ Mapped addr) (hc : ¬ Compatible addr) :
    ∃ t, Canonical addr t ∧
      ip6StrEncode addr (IP6_STR_ADDBRACK ||| IP6_STR_STRIPV4) IP_ADDRPORT_STRLEN =
        (([91] ++ t ++ [93]).length, [91] ++ t ++ [93]) := by
  obtain ⟨t, zeroPos, hpos, hprint, hcanon, -⟩ := printed_canonical _
  have hdotted : isDotted addr (IP6_STR_ADDBRACK ||| IP6_STR_STRIPV4) zeroPos (zeroScan addr).zeroLen =
      false := by
    by_cases hshort : (zeroScan addr).zeroLen ≤ 2
    · rw [← hpos, if_pos hshort]
      simp [isDotted]
    · rcases zeroScan_spec addr with hzero | ⟨p, l, hp, hl, hrun⟩
      · omega
      · rw [← hpos, if_neg hshort, hp, hl]
        exact not_dotted haddr (.inr ⟨hm, hc⟩) hrun
  obtain ⟨htext, hret⟩ := encode_plain (show neededLen _ ≤ IP_ADDRPORT_STRLEN by decide) hpos hdotted
  rw [hprint] at htext
  exact ⟨t, hcanon, Prod.ext (hret.trans (congrArg List.length htext)) htext⟩

theorem not_mapped_of_compatible (h : Compatible addr) : ¬ Mapped addr := by
  intro hm
  have hlen := hm.zeroScan_eq.2.symm.trans h.zeroScan_eq.2
  cases hlen

end

/-- A peer's text is that of its address and port just if an IPv4 address has only its first byte
set, and an IPv6 address is not IPv4-compatible. -/
theorem peer_shown_iff (sa : SockAddr) : (sa.family = .inet → sa.len = SIZEOF_V4 →
      (Shown sa (sockAddrTostr (sockAddrLoad sa)) ↔ sa.sinAddr.1.tail = [0, 0, 0])) ∧
    (sa.family = .inet6 → sa.len = SIZEOF_V6 →
      (Shown sa (sockAddrTostr (sockAddrLoad sa)) ↔ ¬ Compatible sa.sin6Addr.1)) := by
  refine ⟨fun hfam hlen => ?_, fun hfam hlen => ?_⟩
  · have hbyte : [UInt8.ofNat (sAddr sa.sinAddr.1), 0, 0, 0] = [sa.sinAddr.1.headD 0, 0, 0, 0] := by
      match sa.sinAddr.1, sa.sinAddr.2 with
      | [a, b, c, d], _ => simp [sAddr]
    have hrun : sockAddrTostr (sockAddrLoad sa) =
        quadText [sa.sinAddr.1.headD 0, 0, 0, 0] ++ [58] ++ decText sa.port.toNat := by
      rw [sockAddrLoad, hfam]
      simp only [hlen]
      exact withPort_eq (by rw [← hbyte]; exact ip4StrEncode_eq rfl) _
    rw [hrun, shown_iff]
    simp only [hfam, true_and, reduceCtorEq, false_and, or_false]
    match hsin : sa.sinAddr.1, sa.sinAddr.2 with
    | [a, b, c, d], _ =>
      constructor
      · intro heq
        exact congrArg List.tail (quadText_inj rfl rfl heq).symm
      · rintro heq
        rw [show [b, c, d] = [0, 0, 0] from heq]
        rfl
  · have haddr := sa.sin6Addr.2
    have hrun : ∀ text, ip6StrEncode sa.sin6Addr.1 (IP6_STR_ADDBRACK ||| IP6_STR_STRIPV4)
        IP_ADDRPORT_STRLEN = (text.length, text) →
        (Shown sa (sockAddrTostr (sockAddrLoad sa)) ↔ ShownIp6 sa.sin6Addr.1 text) := by
      intro text htext
      have heq : sockAddrTostr (sockAddrLoad sa) = text ++ [58] ++ decText sa.port.toNat := by
        rw [sockAddrLoad, hfam]
        simp only [hlen]
        exact withPort_eq htext _
      rw [heq, shown_iff]
      simp [hfam]
    by_cases hc : Compatible sa.sin6Addr.1
    · rw [hrun _ (encode_stripped haddr (.inr hc))]
      refine iff_of_false ?_ (not_not.2 hc)
      rintro (⟨hm, -⟩ | ⟨-, t, -, heq⟩)
      · exact not_mapped_of_compatible hc hm
      · exact quadText_ne_bracket (by rw [length_drop, haddr]) _ heq
    · refine iff_of_true ?_ hc
      by_cases hm : Mapped sa.sin6Addr.1
      · exact (hrun _ (encode_stripped haddr (.inl hm))).2 (.inl ⟨hm, rfl⟩)
      · obtain ⟨t, hcanon, htext⟩ := encode_bracketed haddr hm hc
        exact (hrun _ htext).2 (.inr ⟨hm, t, .inl hcanon, rfl⟩)

/-- A peer at 10.0.0.1, port 80, is shown as "10.0.0.0:80". -/
theorem ip4_peer_cut : let sa := sockaddrLoad (.v4 (net10 1)) 0 80
    sockAddrTostr (sockAddrLoad sa) = [49, 48, 46, 48, 46, 48, 46, 48, 58, 56, 48] ∧
      ¬ Shown sa (sockAddrTostr (sockAddrLoad sa)) := by
  intro sa
  have htext : sockAddrTostr (sockAddrLoad sa) =
      quadText [10, 0, 0, 0] ++ [58] ++ decText sa.port.toNat := by decide +kernel
  refine ⟨by decide +kernel, fun h => ?_⟩
  rw [htext, shown_iff] at h
  rcases h with ⟨-, heq⟩ | ⟨hfam, -⟩
  · exact absurd heq (by decide +kernel)
  · cases hfam

end CDbK8s.Sock
