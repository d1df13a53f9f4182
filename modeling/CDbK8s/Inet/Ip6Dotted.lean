import CDbK8s.Inet.Ip4Text
import CDbK8s.Inet.Ip6Canonical

/-!
# IPv6 addresses with an IPv4 part

`ip6_str_encode` prints the last four bytes of a mapped or compatible address as an IPv4 address. In
front of them it prints one group more than it should, if the run of zeros has twelve bytes. When
`ip6_str_decode` comes to the first dot it goes back to the second character of the segment, not
to the first, so the first digit of the IPv4 part is lost.
-/

namespace CDbK8s.Inet

open Base Lib.Block List

variable {s : Ip6State}
variable {addr : Bytes}

/-! ## The text -/

def decText (val : Nat) : Bytes := (Nat.toDigits 10 val).map fun c => UInt8.ofNat c.toNat

/-- The dotted quad of four bytes. -/
def quadText (addr : Bytes) : Bytes := [46].intercalate (addr.map fun v => decText v.toNat)

/-- "::ffff:a.b.c.d", or "::a.b.c.d" without the `ff ff`. -/
def dottedText (addr : Bytes) : Bytes :=
  (if addr.getD 10 0 = 0xff then [58, 58, 102, 102, 102, 102, 58] else [58, 58]) ++
    quadText (addr.drop 12)

theorem uint8Toa_decText (v : UInt8) : uint8Toa v = decText v.toNat := by
  have hall : ∀ n : Fin 256, uint8Toa (UInt8.ofNat n) = decText n := by decide +kernel
  have hv := hall ⟨v.toNat, v.toNat_lt⟩
  rw [UInt8.ofNat_toNat] at hv
  exact hv

theorem ip4StrEncode_text {addr : Bytes} (haddr : addr.length = 4) {len : Nat}
    (hlen : IP4_ADDR_STRLEN ≤ len) : (ip4StrEncode addr len).2 = quadText addr := by
  match addr, haddr with
  | [a, b, c, d], _ =>
    rw [ip4StrEncode_quad hlen]
    simp [dottedOctets, quadText, uint8Toa_decText]

/-! ## The run of zeros -/

theorem take_zero_words {n : Nat} (h : addr.take (2 * n) = replicate (2 * n) 0) {j : Nat}
    (hj : j < n) : word addr (2 * j) = 0 := by
  have hbyte : ∀ i, i < 2 * n → addr.getD i 0 = 0 := by
    intro i hi
    have hget : (addr.take (2 * n)).getD i 0 = (replicate (2 * n) (0 : UInt8)).getD i 0 := by
      rw [h]
    simpa [List.getD_eq_getElem?_getD, List.getElem?_take, hi] using hget
  rw [word_eq, hbyte _ (by omega), hbyte _ (by omega)]
  rfl

theorem zeroScan_front {n : Nat} (hmany : 4 < n) (hfits : n < 8)
    (hzero : ∀ j, j < n → word addr (2 * j) = 0) (hstop : word addr (2 * n) ≠ 0) :
    (zeroScan addr).zeroPos = 0 ∧ (zeroScan addr).zeroLen = 2 * n := by
  obtain ⟨b, hlen, hrun, hall⟩ := zeroScan_longest _
  have hle := hall 0 n ⟨by omega, fun j _ _ => hzero j (by omega)⟩
  obtain ⟨p, hpos, hlongest⟩ := hrun (by omega)
  have hfit := hlongest.zeros.1
  -- the run cannot go over group `n`
  have hend : p + b ≤ n := by
    by_contra hover
    exact hstop (hlongest.zeros.2 n (by omega) (by omega))
  have hp : p = 0 := by omega
  have hb : b = n := by omega
  subst hp hb
  exact ⟨hpos, hlen⟩

theorem Mapped.word_ten (h : Mapped addr) : word addr 10 = 0xffff := by
  rw [word_eq, h.2.1, h.2.2]
  rfl

theorem Mapped.zeroScan_eq (h : Mapped addr) :
    (zeroScan addr).zeroPos = 0 ∧ (zeroScan addr).zeroLen = 10 := by
  refine zeroScan_front (n := 5) (by omega) (by omega) (fun j hj => take_zero_words h.1 hj) ?_
  rw [h.word_ten]
  decide

theorem Compatible.zeroScan_eq (h : Compatible addr) :
    (zeroScan addr).zeroPos = 0 ∧ (zeroScan addr).zeroLen = 12 :=
  zeroScan_front (n := 6) (by omega) (by omega) (fun j hj => take_zero_words h.1 hj) h.2

/-! ## What is printed -/

section
variable (haddr : addr.length = 16)
include haddr

theorem encode_mapped (h : Mapped addr) {len : Nat} (hlen : IP6_ADDR_STRLEN ≤ len) :
    ip6StrEncode addr 0 len = ((dottedText addr).length, dottedText addr) := by
  obtain ⟨hpos, hzlen⟩ := h.zeroScan_eq
  have hmax : IP6_ADDR_STRLEN = 46 := rfl
  have hdotted : isDotted addr 0 0 10 = true := by
    unfold isDotted
    rw [h.2.1, h.2.2]
    rfl
  have hprint : printWords addr 0 10 12 8 0 = [58, 58, 102, 102, 102, 102] := by
    rw [printWords]
    dsimp only
    rw [h.word_ten]
    rfl
  have hquad : (ip4StrEncode (addr.drop 12) (len - 7)).2 = quadText (addr.drop 12) :=
    ip4StrEncode_text (by rw [length_drop, haddr]) (show 16 ≤ len - 7 by omega)
  have htext : dottedText addr = [58, 58, 102, 102, 102, 102, 58] ++ quadText (addr.drop 12) := by
    rw [dottedText, if_pos h.2.1]
  unfold ip6StrEncode
  dsimp only
  rw [hpos, hzlen, htext]
  simp [not_lt.2 hlen, hdotted, hprint, hquad]

theorem encode_compatible (h : Compatible addr) {len : Nat} (hlen : IP6_ADDR_STRLEN ≤ len) :
    (ip6StrEncode addr 0 len).2 =
      [58, 58] ++ uint16Toax (word addr 12) ++ quadText (addr.drop 12) := by
  obtain ⟨hpos, hzlen⟩ := h.zeroScan_eq
  have hmax : IP6_ADDR_STRLEN = 46 := rfl
  have hdotted : isDotted addr 0 0 12 = true := by
    rfl
  have hprint : printWords addr 0 12 12 8 0 = [58, 58] ++ uint16Toax (word addr 12) := by
    rw [printWords, if_pos (by decide), if_pos (by decide)]
    dsimp only
    rw [if_neg (by decide), printWords, if_neg (by decide), append_nil]
  have hshort := length_uint16Toax_le (word addr 12)
  have hquad : (ip4StrEncode (addr.drop 12) (len - (2 + (uint16Toax (word addr 12)).length))).2 =
      quadText (addr.drop 12) :=
    ip4StrEncode_text (by rw [length_drop, haddr])
      (show 16 ≤ len - (2 + (uint16Toax (word addr 12)).length) by omega)
  have hsize : (58 :: 58 :: uint16Toax (word addr 12)).length =
      2 + (uint16Toax (word addr 12)).length := by
    simp
    omega
  unfold ip6StrEncode
  dsimp only
  rw [hpos, hzlen]
  simp [not_lt.2 hlen, hdotted, hprint, ← hquad, ← hsize]

theorem compatible_text_ne (h : Compatible addr) {len : Nat} (hlen : IP6_ADDR_STRLEN ≤ len) :
    (ip6StrEncode addr 0 len).2 ≠ dottedText addr := by
  have hten : addr.getD 10 0 ≠ 0xff := by
    have hzero : (addr.take 12).getD 10 0 = (replicate 12 (0 : UInt8)).getD 10 0 := by rw [h.1]
    have hbyte : addr.getD 10 0 = 0 := by
      simpa [List.getD_eq_getElem?_getD, List.getElem?_take] using hzero
    rw [hbyte]
    decide
  rw [encode_compatible haddr h hlen, dottedText, if_neg hten]
  intro heq
  have hsize := congrArg List.length heq
  obtain ⟨ch, rest, hhex, -⟩ := head_uint16Toax _
  rw [hhex] at hsize
  simp at hsize
  omega

end

/-! ## What is decoded -/

theorem uint8Toa_hex (v : UInt8) :
    ∃ ds : List Nat, uint8Toa v = ds.map hexDigit ∧ (∀ d ∈ ds, d < 16) ∧ 0 < ds.length ∧
      ds.length ≤ 3 := by
  have hdigit : ∀ ch : UInt8, IsDec ch → hexDigit (ch.toNat - 48) = ch ∧ ch.toNat - 48 < 16 := by
    have hall : ∀ n : Fin 256, IsDec (UInt8.ofNat n) →
        hexDigit ((UInt8.ofNat n).toNat - 48) = UInt8.ofNat n ∧ (UInt8.ofNat n).toNat - 48 < 16 := by
      decide +kernel
    intro ch hch
    have hbyte := hall ⟨ch.toNat, ch.toNat_lt⟩
    rw [UInt8.ofNat_toNat] at hbyte
    exact hbyte hch
  obtain ⟨hoctet, -⟩ := uint8Toa_octet v
  refine ⟨(uint8Toa v).map fun ch => ch.toNat - 48, ?_, ?_, ?_, ?_⟩
  · rw [map_map]
    refine (map_id _).symm.trans (map_congr_left fun ch hch => ?_)
    exact (hdigit ch (hoctet.digits ch hch)).1.symm
  · intro d hd
    obtain ⟨ch, hch, rfl⟩ := mem_map.1 hd
    exact (hdigit ch (hoctet.digits ch hch)).2
  · rw [length_map]
    exact length_pos_of_ne_nil hoctet.nonempty
  · rw [length_map]
    exact hoctet.short

theorem loop_mapped (str : Bytes) (under : UInt8) (dst : Bytes) {ch : UInt8} (hch : ch ≠ 58)
    (rest : Bytes) :
    ip6Loop str under (58 :: 58 :: 102 :: 102 :: 102 :: 102 :: 58 :: ch :: rest)
        ⟨0, 0, dst, 0, none, 0, 0, 0⟩ =
      ip6Loop str under (ch :: rest) ⟨7, 8, blit dst 0 [255, 255], 2, some 0, 0, 2, 0⟩ := by
  have hpeek : (ch == 58) = false := by simpa using hch
  simp [ip6Loop, ip6Char, isHex, hexToNibble, Ip6State.nextSeg, Ip6State.putSeg, encU16, hpeek]

theorem loop_dot (str : Bytes) (under : UInt8) (hseg : s.numSeg ≤ 6) (rest : Bytes) :
    ip6Loop str under (46 :: rest) s =
      let r := ip4StrDecode (str.drop s.segPtr)
      let dst := blit s.dst s.dstPtr r.2
      if r.1 = 0 then .inl (0, dst)
      else underrun under { s with
        dst, numHex := 0, strPtr := ptrAdd s.segPtr r.1, dstPtr := s.dstPtr + 4
        numSeg := s.numSeg + 2 } := by
  rw [ip6Loop_cons, ip6Char]
  dsimp only
  rw [if_neg (by decide), if_neg (by decide), if_pos rfl, if_neg (by omega)]
  by_cases hzero : (ip4StrDecode (str.drop s.segPtr)).1 = 0
  · simp [if_pos hzero]
  · simp [if_neg hzero]

theorem uint8Toa_tail {v : UInt8} (h : (uint8Toa v).tail ≠ []) :
    IsOctet (uint8Toa v).tail ∧ decValue (uint8Toa v).tail ≠ v.toNat := by
  have hall : ∀ n : Fin 256, (uint8Toa (UInt8.ofNat n)).tail ≠ [] →
      (uint8Toa (UInt8.ofNat n)).tail.all (fun ch => decide (IsDec ch)) = true ∧
        (uint8Toa (UInt8.ofNat n)).tail.length ≤ 3 ∧
        decValue (uint8Toa (UInt8.ofNat n)).tail ≤ 255 ∧
        decValue (uint8Toa (UInt8.ofNat n)).tail ≠ n := by
    decide +kernel
  have hv := hall ⟨v.toNat, v.toNat_lt⟩
  rw [UInt8.ofNat_toNat] at hv
  obtain ⟨hdigits, hshort, hsmall, hne⟩ := hv h
  exact ⟨⟨forall_mem_of_all hdigits, h, hshort, hsmall⟩, hne⟩

theorem finish_acc (h : s.numHex = 0) : ip6Finish s = ip6Finish { s with acc := 0 } := by
  unfold ip6Finish
  rw [if_neg (fun hne => hne h), if_neg (fun hne => hne h)]

theorem finish_mapped {dst quad : Bytes} (hdst : dst.length = 16) (hquad : quad.length = 4)
    {pos : Nat} (hpos : pos < 2 ^ 64) (hptr : s.strPtr = pos)
    (hwr : s.dst = blit (blit dst 0 [255, 255]) 2 quad) (hend : s.dstPtr = 6)
    (hzero : s.zeroPtr = some 0) (hnum : s.numHex = 0) :
    ip6Finish s = (pos, replicate 10 0 ++ [255, 255] ++ quad) := by
  have hclean : Clean dst { s with acc := 0 } pos ([255, 255] ++ quad) (some 0) s.numSeg := by
    refine ⟨hptr, ?_, ?_, hzero, hnum, rfl, rfl⟩
    · rw [hwr]
      exact blit_behind [255, 255] dst _
    · rw [length_append, hquad]
      exact hend
  rw [finish_acc hnum, finish_gap_last hclean zero_le
    (by rw [length_append, hquad]; decide) hdst hpos, length_append, hquad]
  rfl

/-- The text of a mapped address is not decoded to it: either nothing is decoded, or the first byte
of the IPv4 part is another one. -/
theorem decode_mapped (a b c d : UInt8) (under : UInt8) {dst : Bytes} (hdst : dst.length = 16)
    {n : Nat} (hbyte : addr.getD 12 0 = a) (hn : n ≠ 0) :
    ip6StrDecode ([58, 58, 102, 102, 102, 102, 58] ++
      (dottedOctets [uint8Toa a, uint8Toa b, uint8Toa c] ++ uint8Toa d)) under dst ≠ (n, addr) := by
  obtain ⟨ds, hds, hlt, hpos, hthree⟩ := uint8Toa_hex a
  obtain ⟨x, xs, hcons⟩ : ∃ x xs, uint8Toa a = x :: xs :=
    exists_cons_of_ne_nil (uint8Toa_octet a).1.nonempty
  have hx : x ≠ 58 := by
    cases ds with
    | nil => exact absurd hpos (lt_irrefl 0)
    | cons e _ =>
      have hhead : x = hexDigit e := by
        rw [hcons] at hds
        exact (List.cons.inj hds).1
      rw [hhead]
      exact hexDigit_ne_colon (hlt e mem_cons_self)
  have htail : ∀ o : Bytes, dottedOctets [o, uint8Toa b, uint8Toa c] ++ uint8Toa d =
      o ++ 46 :: (dottedOctets [uint8Toa b, uint8Toa c] ++ uint8Toa d) := by
    simp [dottedOctets]
  obtain ⟨str, hstr⟩ : ∃ str, str = [58, 58, 102, 102, 102, 102, 58] ++
      (dottedOctets [uint8Toa a, uint8Toa b, uint8Toa c] ++ uint8Toa d) := ⟨_, rfl⟩
  -- without its first eight characters the string has lost the first digit
  have hdrop : str.drop 8 = dottedOctets [xs, uint8Toa b, uint8Toa c] ++ uint8Toa d := by
    rw [hstr, htail, htail, hcons]
    rfl
  have hloop : ip6Loop str under str ⟨0, 0, dst, 0, none, 0, 0, 0⟩ =
      ip6Loop str under (46 :: (dottedOctets [uint8Toa b, uint8Toa c] ++ uint8Toa d))
        ⟨7 + ds.length, 8, blit dst 0 [255, 255], 2, some 0, 0 + ds.length, 2,
          ds.foldl (fun acc d => acc * 16 + d) 0⟩ := by
    have hstart := loop_mapped str under dst hx
      (xs ++ 46 :: (dottedOctets [uint8Toa b, uint8Toa c] ++ uint8Toa d))
    have hdigits := loop_digits str under ds hlt
      (s := ⟨7, 8, blit dst 0 [255, 255], 2, some 0, 0, 2, 0⟩) (by dsimp only; omega)
      (by dsimp only; decide)
      (46 :: (dottedOctets [uint8Toa b, uint8Toa c] ++ uint8Toa d))
    rw [← hds, hcons] at hdigits
    refine Eq.trans ?_ (hstart.trans hdigits)
    congr 1
    rw [hstr, htail, hcons]
    rfl
  rw [← hstr, ip6StrDecode, hloop, loop_dot str _ (by dsimp only; decide)]
  rw [hdrop]
  by_cases hxs : xs = []
  · -- a single digit: the IPv4 address starts with the dot
    have hnone : ip4StrDecode (dottedOctets [xs, uint8Toa b, uint8Toa c] ++ uint8Toa d) = (0, []) := by
      rw [htail, hxs, nil_append, ip4StrDecode, ip4Loop_dot_stray (.inl rfl)]
    rw [hnone]
    exact fun heq => hn (congrArg Prod.fst heq).symm
  · have htl : (uint8Toa a).tail = xs := by rw [hcons]; rfl
    obtain ⟨hoctet, hother⟩ := uint8Toa_tail (by rw [htl]; exact hxs)
    rw [htl] at hoctet hother
    obtain ⟨hb, -⟩ := uint8Toa_octet b
    obtain ⟨hc, -⟩ := uint8Toa_octet c
    obtain ⟨hd, -⟩ := uint8Toa_octet d
    have hquad := @ip4StrDecode_quad [xs, uint8Toa b, uint8Toa c] _ rfl
      (by simp [hoctet, hb, hc]) hd
    have hsize : 0 < (dottedOctets [xs, uint8Toa b, uint8Toa c] ++ uint8Toa d).length ∧
        (dottedOctets [xs, uint8Toa b, uint8Toa c] ++ uint8Toa d).length ≤ 15 := by
      have h1 := hoctet.short
      have h2 := hb.short
      have h3 := hc.short
      have h4 := hd.short
      simp [dottedOctets]
      omega
    rw [hquad, if_neg (by dsimp only; omega), underrun, if_neg (by unfold ptrAdd; dsimp only; omega)]
    dsimp only
    have hptr : ptrAdd 8 (dottedOctets [xs, uint8Toa b, uint8Toa c] ++ uint8Toa d).length =
        (8 + (dottedOctets [xs, uint8Toa b, uint8Toa c] ++ uint8Toa d).length : Nat) := by
      unfold ptrAdd
      omega
    rw [finish_mapped hdst rfl (by omega) hptr rfl rfl rfl rfl]
    intro heq
    have haddr := congrArg Prod.snd heq
    dsimp only at haddr
    rw [← haddr] at hbyte
    have hvalue : UInt8.ofNat (decValue xs) = a := hbyte
    apply hother
    rw [← hvalue, UInt8.toNat_ofNat_of_lt' (by have := hoctet.small; show _ < 256; omega)]

/-! ## The round trip -/

/-- For every address that is printed with an IPv4 part: the text is the dotted one exactly if the
address is mapped; and there is no address for which it is, and is also decoded to its full length
and to the address. -/
theorem dotted_never_round_trips {addr : Bytes} (haddr : addr.length = 16)
    (hform : Mapped addr ∨ Compatible addr) {len : Nat} (hlen : IP6_ADDR_STRLEN ≤ len) (under : UInt8)
    {dst : Bytes} (hdst : dst.length = 16) :
    ((ip6StrEncode addr 0 len).2 = dottedText addr ↔ Mapped addr) ∧
      ¬ ((ip6StrEncode addr 0 len).2 = dottedText addr ∧
        ip6StrDecode ((ip6StrEncode addr 0 len).2.take (ip6StrEncode addr 0 len).1) under dst =
          ((ip6StrEncode addr 0 len).1, addr)) := by
  have htext : (ip6StrEncode addr 0 len).2 = dottedText addr ↔ Mapped addr := by
    refine ⟨fun heq => ?_, fun hmapped => congrArg _ (encode_mapped haddr hmapped hlen)⟩
    rcases hform with hmapped | hcompat
    · exact hmapped
    · exact absurd heq (compatible_text_ne haddr hcompat hlen)
  refine ⟨htext, ?_⟩
  rintro ⟨heq, hdecode⟩
  have hmapped := htext.1 heq
  obtain ⟨a, b, c, d, hlast⟩ : ∃ a b c d, addr.drop 12 = [a, b, c, d] := by
    have hfour : (addr.drop 12).length = 4 := by rw [length_drop, haddr]
    match addr.drop 12, hfour with
    | [a, b, c, d], _ => exact ⟨a, b, c, d, rfl⟩
  have hbyte : addr.getD 12 0 = a := by
    have hget : (addr.drop 12).getD 0 0 = a := by rw [hlast]; rfl
    simpa [List.getD_eq_getElem?_getD] using hget
  have hquad : quadText (addr.drop 12) =
      dottedOctets [uint8Toa a, uint8Toa b, uint8Toa c] ++ uint8Toa d := by
    rw [hlast, ← @ip4StrEncode_text [a, b, c, d] rfl IP4_ADDR_STRLEN le_rfl,
      ip4StrEncode_quad le_rfl]
  rw [encode_mapped haddr hmapped hlen, take_length, dottedText, if_pos hmapped.2.1,
    hquad] at hdecode
  exact decode_mapped a b c d _ hdst hbyte (by simp) hdecode

/-- "::ffff:10.0.0.1" is decoded to 0.0.0.1, and the compatible address is printed as
"::a0010.0.0.1". -/
theorem mapped_text_lost :
    let addr : Bytes := [0, 0, 0, 0, 0, 0, 0, 0, 0, 0, 255, 255, 10, 0, 0, 1]
    let compat : Bytes := [0, 0, 0, 0, 0, 0, 0, 0, 0, 0, 0, 0, 10, 0, 0, 1]
    ip6StrEncode addr 0 46 = (15, [58, 58, 102, 102, 102, 102, 58, 49, 48, 46, 48, 46, 48, 46, 49]) ∧
      ip6StrDecode (ip6StrEncode addr 0 46).2 0 (replicate 16 0) =
        (15, [0, 0, 0, 0, 0, 0, 0, 0, 0, 0, 255, 255, 0, 0, 0, 1]) ∧
      (ip6StrEncode compat 0 46).2 = [58, 58, 97, 48, 48, 49, 48, 46, 48, 46, 48, 46, 49] := by
  decide +kernel

/-- "::ffff:1.2.3.4" is not decoded. -/
theorem mapped_text_not_decoded :
    let addr : Bytes := [0, 0, 0, 0, 0, 0, 0, 0, 0, 0, 255, 255, 1, 2, 3, 4]
    (ip6StrEncode addr 0 46).2 = dottedText addr ∧
      ip6StrDecode ((ip6StrEncode addr 0 46).2.take (ip6StrEncode addr 0 46).1) 0
        (replicate 16 0) ≠ ((ip6StrEncode addr 0 46).1, addr) := by
  have hmapped : Mapped [0, 0, 0, 0, 0, 0, 0, 0, 0, 0, 255, 255, 1, 2, 3, 4] := by
    unfold Mapped
    decide
  obtain ⟨htext, hnot⟩ := @dotted_never_round_trips
    [0, 0, 0, 0, 0, 0, 0, 0, 0, 0, 255, 255, 1, 2, 3, 4] rfl (.inl hmapped) 46 le_rfl 0
    (replicate 16 0) rfl
  exact ⟨htext.2 hmapped, fun heq => hnot ⟨htext.2 hmapped, heq⟩⟩

end CDbK8s.Inet
