import CDbK8s.Inet.Text

/-!
# Reading groups of hex digits

What the loop of `ip6_str_decode` does with groups of hex digits between colons.
-/

namespace CDbK8s.Inet

open Base Lib.Block List

variable {s : Ip6State} {d : Nat}
variable {val : Nat}

/-! ## Digits -/

theorem isHex_hexDigit (hd : d < 16) : isHex (hexDigit d) = true := by
  revert d
  decide

theorem hexDigit_ne_colon (hd : d < 16) : hexDigit d ≠ 58 := by
  revert d
  decide

def digitValue (ch : UInt8) : Nat :=
  if ch ≤ 57 then ch.toNat - 48 else if ch ≤ 70 then ch.toNat - 55 else ch.toNat - 87

/-- The number that hexadecimal digits write. -/
def hexValue (digits : Bytes) : Nat := digits.foldl (fun acc ch => acc * 16 + digitValue ch) 0

theorem isHex_facts (ch : UInt8) (hch : isHex ch = true) :
    hexToNibble ch = digitValue ch ∧ digitValue ch < 16 ∧ ch ≠ 58 := by
  have hall : ∀ n : Fin 256, isHex (UInt8.ofNat n) = true →
      hexToNibble (UInt8.ofNat n) = digitValue (UInt8.ofNat n) ∧
        digitValue (UInt8.ofNat n) < 16 ∧ UInt8.ofNat n ≠ 58 := by
    decide +kernel
  have hthis := hall ⟨ch.toNat, ch.toNat_lt⟩
  rw [UInt8.ofNat_toNat] at hthis
  exact hthis hch

theorem digitValue_hexDigit (hd : d < 16) : digitValue (hexDigit d) = d := by
  revert d
  decide

theorem shift_or (acc : Nat) (hd : d < 16) : acc <<< 4 ||| d = acc * 16 + d := by
  rw [← Nat.shiftLeft_add_eq_or_of_lt hd, Nat.shiftLeft_eq]

/-- The digits of a group, without leading zeros. -/
def nibbles (val : Nat) : List Nat :=
  (if val ≥ 0x1000 then [val / 4096 % 16] else []) ++
    (if val ≥ 0x100 then [val / 256 % 16] else []) ++
    (if val ≥ 0x10 then [val / 16 % 16] else []) ++ [val % 16]

theorem uint16Toax_eq (val : Nat) : uint16Toax val = (nibbles val).map hexDigit := by
  have hmask : ∀ x : Nat, x &&& 0xf = x % 16 := fun x => Nat.and_two_pow_sub_one_eq_mod x 4
  have hmap : ∀ (p : Prop) [Decidable p] (d : Nat), (if p then [hexDigit d] else []) =
      (if p then [d] else []).map hexDigit := by
    intro p _ d
    split <;> rfl
  unfold uint16Toax nibbles
  simp [hmask, Nat.shiftRight_eq_div_pow, hmap]

theorem nibbles_lt (hd : d ∈ nibbles val) : d < 16 := by
  unfold nibbles at hd
  simp at hd
  omega

theorem length_nibbles (val : Nat) : 0 < (nibbles val).length ∧ (nibbles val).length ≤ 4 := by
  unfold nibbles
  simp only [length_append, apply_ite _, length_cons, length_nil]
  split_ifs <;> omega

theorem foldl_nibbles (hval : val < 2 ^ 16) :
    (nibbles val).foldl (fun acc d => acc * 16 + d) 0 = val := by
  unfold nibbles
  split_ifs <;> simp only [nil_append, cons_append, foldl_cons, foldl_nil] <;> omega

/-! ## One character -/

theorem ip6Loop_cons (str : Bytes) (under ch : UInt8) (rest : Bytes) (s : Ip6State) :
    ip6Loop str under (ch :: rest) s =
      match ip6Char str ch (rest.head? == some 58) s with
      | .ret n dst => .inl (n, dst)
      | .next s => ip6Loop str under rest s
      | .skip s => ip6Loop str under rest.tail s
      | .stop s => underrun under s := by
  cases rest with
  | nil => rfl
  | cons _ rest => rfl

variable (str : Bytes) (under : UInt8)

theorem loop_hex {ch : UInt8} (hch : isHex ch = true) (hnum : s.numHex < 4) (hacc : s.acc < 16 ^ 4)
    (rest : Bytes) :
    ip6Loop str under (ch :: rest) s = ip6Loop str under rest
        { s with
          strPtr := s.strPtr + 1, numHex := s.numHex + 1, acc := s.acc * 16 + digitValue ch } := by
  obtain ⟨hnibble, hd, -⟩ := isHex_facts ch hch
  have hmod : (s.acc * 16 + digitValue ch) % 2 ^ 32 = s.acc * 16 + digitValue ch :=
    Nat.mod_eq_of_lt (by omega)
  rw [ip6Loop_cons, ip6Char]
  dsimp only
  rw [if_pos hch, if_neg (by omega), hnibble, shift_or _ hd, hmod]

theorem loop_hexes (cs : Bytes) (hcs : ∀ ch ∈ cs, isHex ch = true) (hnum : s.numHex + cs.length ≤ 4)
    (hacc : s.acc < 16 ^ s.numHex) (rest : Bytes) :
    ip6Loop str under (cs ++ rest) s = ip6Loop str under rest
        { s with
          strPtr := s.strPtr + cs.length, numHex := s.numHex + cs.length
          acc := cs.foldl (fun acc ch => acc * 16 + digitValue ch) s.acc } := by
  induction cs generalizing s with
  | nil => simp
  | cons ch cs ih =>
    have hch := hcs ch mem_cons_self
    have hd := (isHex_facts ch hch).2.1
    rw [length_cons] at hnum
    have hsmall : s.acc < 16 ^ 4 :=
      lt_of_lt_of_le hacc (Nat.pow_le_pow_right (by decide) (by omega))
    have hnext : s.acc * 16 + digitValue ch < 16 ^ (s.numHex + 1) := by
      omega
    rw [cons_append, loop_hex str _ hch (by omega) hsmall,
      ih (fun ch' hch' => hcs ch' (.tail _ hch')) (by dsimp only; omega) hnext]
    simp only [length_cons]
    congr 2 <;> omega

theorem loop_digits (ds : List Nat) (hds : ∀ d ∈ ds, d < 16) (hnum : s.numHex + ds.length ≤ 4)
    (hacc : s.acc < 16 ^ s.numHex) (rest : Bytes) :
    ip6Loop str under (ds.map hexDigit ++ rest) s = ip6Loop str under rest
        { s with
          strPtr := s.strPtr + ds.length, numHex := s.numHex + ds.length
          acc := ds.foldl (fun acc d => acc * 16 + d) s.acc } := by
  have hhex : ∀ ch ∈ ds.map hexDigit, isHex ch = true := by
    rintro ch hch
    obtain ⟨d, hd, rfl⟩ := mem_map.1 hch
    exact isHex_hexDigit (hds d hd)
  have hfold : (ds.map hexDigit).foldl (fun acc ch => acc * 16 + digitValue ch) s.acc =
      ds.foldl (fun acc d => acc * 16 + d) s.acc := by
    rw [foldl_map]
    exact foldl_ext _ _ _ fun acc d hd => by rw [digitValue_hexDigit (hds d hd)]
  simp [loop_hexes str _ _ hhex (by rw [length_map]; exact hnum) hacc, hfold]

/-! ## Groups -/

/-- The loop at the start of a group: `wr` is written, `zeroPtr` is the gap and `numSeg`
groups are counted. -/
structure Clean (dst : Bytes) (s : Ip6State) (pos : Nat) (wr : Bytes) (zeroPtr : Option Nat)
    (numSeg : Nat) : Prop where
  strPtr : s.strPtr = pos
  dst_eq : s.dst = wr ++ dst.drop wr.length
  dstPtr : s.dstPtr = wr.length
  zeroPtr_eq : s.zeroPtr = zeroPtr
  numHex : s.numHex = 0
  numSeg_eq : s.numSeg = numSeg
  acc : s.acc = 0

/-- The loop behind the digits of a group with the value `val`. -/
structure Pending (dst : Bytes) (s : Ip6State) (pos : Nat) (wr : Bytes) (zeroPtr : Option Nat)
    (numSeg : Nat) (val : Nat) : Prop where
  strPtr : s.strPtr = pos
  dst_eq : s.dst = wr ++ dst.drop wr.length
  dstPtr : s.dstPtr = wr.length
  zeroPtr_eq : s.zeroPtr = zeroPtr
  numHex : 0 < s.numHex
  numSeg_eq : s.numSeg = numSeg
  acc : s.acc = val

variable {dst : Bytes} {s : Ip6State} {pos : Nat} {wr : Bytes} {zeroPtr : Option Nat} {numSeg : Nat}

theorem loop_group (h : Clean dst s pos wr zeroPtr numSeg) {f : Bytes}
    (hf : ∀ ch ∈ f, isHex ch = true) (hne : f ≠ []) (hlen : f.length ≤ 4) :
    ∃ s', Pending dst s' (pos + f.length) wr zeroPtr numSeg (hexValue f) ∧
      ∀ rest, ip6Loop str under (f ++ rest) s = ip6Loop str under rest s' := by
  have hpos : 0 < f.length := length_pos_iff.2 hne
  have hnum := h.numHex
  refine ⟨{ s with
    strPtr := s.strPtr + f.length, numHex := s.numHex + f.length
    acc := f.foldl (fun acc ch => acc * 16 + digitValue ch) s.acc }, ?_, ?_⟩
  · refine ⟨?_, h.dst_eq, h.dstPtr, h.zeroPtr_eq, ?_, h.numSeg_eq, ?_⟩
    · simp [← h.strPtr]
    · show 0 < s.numHex + f.length
      omega
    · rw [h.acc, hexValue]
  · intro _
    rw [loop_hexes str _ f hf (by omega)]
    rw [h.acc]
    exact Nat.pow_pos (by decide)

theorem loop_long (h : Clean dst s pos wr zeroPtr numSeg) {f : Bytes}
    (hf : ∀ ch ∈ f, isHex ch = true) (hlen : 4 < f.length) (rest : Bytes) :
    ∃ d, ip6Loop str under (f ++ rest) s = .inl (0, d) := by
  have hfour : (f.take 4).length = 4 := by
    rw [length_take]
    omega
  have hsplit : f = f.take 4 ++ f[4] :: f.drop 5 := by
    simp
  have hhead : ∀ ch ∈ f.take 4, isHex ch = true := fun ch hch => hf ch (mem_of_mem_take hch)
  have hfifth : isHex f[4] = true := hf _ (getElem_mem _)
  have hnum := h.numHex
  have hstart := loop_hexes str under _ hhead (s := s) (by omega)
    (by rw [h.acc]; exact Nat.pow_pos (by decide)) (f[4] :: (f.drop 5 ++ rest))
  rw [hsplit, append_assoc, cons_append, hstart, ip6Loop_cons, ip6Char]
  dsimp only
  rw [if_pos hfifth, if_pos (by omega)]
  exact ⟨_, rfl⟩

theorem blit_behind (wr dst bs : Bytes) :
    blit (wr ++ dst.drop wr.length) wr.length bs = wr ++ bs ++ dst.drop (wr ++ bs).length := by
  simp [blit]

section
variable (h : Pending dst s pos wr zeroPtr numSeg val)
include h

theorem Pending.write (ptr : Nat) (zeroPtr' : Option Nat) :
    Clean dst ({ s.putSeg with strPtr := ptr, zeroPtr := zeroPtr' } : Ip6State).nextSeg ptr
      (wr ++ encU16 val) zeroPtr' (numSeg + 1) := by
  refine ⟨rfl, ?_, ?_, rfl, rfl, ?_, rfl⟩
  · show blit s.dst s.dstPtr (encU16 s.acc) = _
    rw [h.dst_eq, h.dstPtr, h.acc, blit_behind]
  · show s.dstPtr + 2 = _
    rw [h.dstPtr, length_append]
    rfl
  · show s.numSeg + 1 = _
    rw [h.numSeg_eq]

theorem loop_colon (hseg : numSeg < 7) :
    ∃ s', Clean dst s' (pos + 1) (wr ++ encU16 val) zeroPtr (numSeg + 1) ∧
      ∀ rest, (rest.head? == some 58) = false →
        ip6Loop str under (58 :: rest) s = ip6Loop str under rest s' := by
  refine ⟨_, h.write _ _, fun _ hpeek => ?_⟩
  have hnum : s.numHex ≠ 0 := h.numHex.ne'
  have hptr : s.strPtr + 1 = (pos + 1 : Nat) := by rw [h.strPtr, Nat.cast_add, Nat.cast_one]
  rw [ip6Loop_cons, hpeek, ip6Char]
  rw [if_neg (by decide), if_pos rfl, if_neg (by rw [h.numSeg_eq]; omega), if_pos hnum, hptr,
    ← h.zeroPtr_eq]
  rfl

omit h in
theorem loop_colon_first (h : Clean dst s pos wr zeroPtr numSeg) :
    ∃ s', Clean dst s' (pos + 1) wr zeroPtr (numSeg + 1) ∧ ∀ rest, (rest.head? == some 58) = false →
        ip6Loop str under (58 :: rest) s = ip6Loop str under rest s' := by
  refine ⟨({ s with strPtr := s.strPtr + 1 } : Ip6State).nextSeg,
    ⟨?_, h.dst_eq, h.dstPtr, h.zeroPtr_eq, rfl, ?_, rfl⟩, fun _ hpeek => ?_⟩
  · show s.strPtr + 1 = (pos + 1 : Nat)
    rw [h.strPtr]
    omega
  · show s.numSeg + 1 = numSeg + 1
    rw [h.numSeg_eq]
  · have hnum : ¬ s.numHex ≠ 0 := fun hne => hne h.numHex
    rw [ip6Loop_cons, hpeek, ip6Char]
    rw [if_neg (by decide), if_pos rfl, if_neg (fun hboth => hnum hboth.1), if_neg hnum,
      if_neg Bool.false_ne_true]

theorem loop_colon_full (hseg : 7 ≤ numSeg) (rest : Bytes) :
    ∃ d, ip6Loop str under (58 :: rest) s = .inl (0, d) := by
  rw [ip6Loop_cons, ip6Char]
  rw [if_neg (by decide), if_pos rfl, if_pos ⟨h.numHex.ne', by rw [h.numSeg_eq]; exact hseg⟩]
  exact ⟨_, rfl⟩

end

theorem loop_gap_twice {z : Nat} (hzero : s.zeroPtr = some z) (rest : Bytes) :
    ∃ d, ip6Loop str under (58 :: 58 :: rest) s = .inl (0, d) := by
  have hpeek : (((58 : UInt8) :: rest).head? == some 58) = true := rfl
  rw [ip6Loop_cons, hpeek, ip6Char]
  rw [if_pos rfl]
  by_cases hfull : s.numHex ≠ 0 ∧ s.numSeg ≥ 7
  · rw [if_pos hfull]
    exact ⟨_, rfl⟩
  · have hgap : (if s.numHex ≠ 0 then ({ s with strPtr := s.strPtr + 1 } : Ip6State).putSeg
        else { s with strPtr := s.strPtr + 1 }).zeroPtr.isSome = true := by
      split <;> simp [Ip6State.putSeg, hzero]
    rw [if_neg hfull, if_pos rfl, if_pos hgap]
    exact ⟨_, rfl⟩

theorem loop_gap (h : Pending dst s pos wr none numSeg val) (hseg : numSeg < 7) :
    ∃ s', Clean dst s' (pos + 2) (wr ++ encU16 val) (some (wr.length + 2)) (numSeg + 1) ∧
      ∀ rest, ip6Loop str under (58 :: 58 :: rest) s = ip6Loop str under rest s' := by
  refine ⟨_, h.write _ _, fun rest => ?_⟩
  have hnum : s.numHex ≠ 0 := h.numHex.ne'
  have hptr : s.strPtr + 1 + 1 = (pos + 2 : Nat) := by
    rw [h.strPtr]
    omega
  have hpeek : (((58 : UInt8) :: rest).head? == some 58) = true := rfl
  have hgap : ¬ ({ s with strPtr := s.strPtr + 1 } : Ip6State).putSeg.zeroPtr.isSome = true := by
    show ¬ s.zeroPtr.isSome = true
    simp [h.zeroPtr_eq]
  have hwrite : s.dstPtr + 2 = wr.length + 2 := by rw [h.dstPtr]
  rw [ip6Loop_cons, hpeek, ip6Char]
  rw [if_neg (by decide), if_pos rfl, if_neg (by rw [h.numSeg_eq]; omega), if_pos hnum,
    if_pos rfl, if_neg hgap, ← hptr, ← hwrite]
  rfl

theorem loop_gap_first (h : Clean dst s pos wr none numSeg) :
    ∃ s', Clean dst s' (pos + 2) wr (some wr.length) (numSeg + 1) ∧
      ∀ rest, ip6Loop str under (58 :: 58 :: rest) s = ip6Loop str under rest s' := by
  refine ⟨({ s with zeroPtr := some s.dstPtr, strPtr := s.strPtr + 1 + 1 } : Ip6State).nextSeg,
    ⟨?_, h.dst_eq, h.dstPtr, ?_, rfl, ?_, rfl⟩, fun rest => ?_⟩
  · show s.strPtr + 1 + 1 = (pos + 2 : Nat)
    rw [h.strPtr]
    omega
  · show some s.dstPtr = some wr.length
    rw [h.dstPtr]
  · show s.numSeg + 1 = numSeg + 1
    rw [h.numSeg_eq]
  · have hgap : ¬ s.zeroPtr.isSome = true := by simp [h.zeroPtr_eq]
    have hnum : ¬ s.numHex ≠ 0 := fun hne => hne h.numHex
    have hpeek : (((58 : UInt8) :: rest).head? == some 58) = true := rfl
    rw [ip6Loop_cons, hpeek, ip6Char]
    rw [if_neg (by decide), if_pos rfl, if_neg (fun hboth => hnum hboth.1), if_neg hnum,
      if_pos rfl, if_neg hgap]
    rfl

def colonGroups (vals : List Nat) : Bytes := vals.flatMap fun val => 58 :: uint16Toax val

/-- Groups in network order. -/
def encWords (vals : List Nat) : Bytes := vals.flatMap encU16

theorem head_uint16Toax (val : Nat) : ∃ ch rest, uint16Toax val = ch :: rest ∧ ch ≠ 58 := by
  rw [uint16Toax_eq]
  have hpos := (length_nibbles val).1
  cases hn : nibbles val with
  | nil =>
    rw [hn] at hpos
    exact absurd hpos (lt_irrefl 0)
  | cons d ds =>
    refine ⟨hexDigit d, ds.map hexDigit, rfl, hexDigit_ne_colon ?_⟩
    exact nibbles_lt (by rw [hn]; exact mem_cons_self : d ∈ nibbles val)

/-! ## The end -/

theorem gap_fill {wr tail : Bytes} (hlen : wr.length + tail.length = 16) {z : Nat}
    (hz : z ≤ wr.length) :
    blit (blit (wr ++ tail) (16 - (wr.length - z)) (window (wr ++ tail) z (wr.length - z))) z
        (replicate (16 - wr.length) 0) =
      wr.take z ++ replicate (16 - wr.length) 0 ++ wr.drop z := by
  have hmove : window (wr ++ tail) z (wr.length - z) = wr.drop z := by
    rw [window, drop_append_of_le_length hz, take_append_of_le_length
      (by rw [length_drop]), take_of_length_le (by rw [length_drop])]
  have hdrop : (wr.drop z).length = wr.length - z := length_drop
  have hall : (wr ++ tail).length = 16 := by rw [length_append, hlen]
  have hmoved : blit (wr ++ tail) (16 - (wr.length - z)) (wr.drop z) =
      (wr ++ tail).take (16 - (wr.length - z)) ++ wr.drop z := by
    have hnone : (wr ++ tail).drop (16 - (wr.length - z) + (wr.drop z).length) = [] :=
      drop_of_length_le (by rw [hall]; omega)
    rw [blit, hnone, append_nil]
  have hfront : ((wr ++ tail).take (16 - (wr.length - z))).length = 16 - (wr.length - z) := by
    rw [length_take]
    omega
  have hgap : z + (replicate (16 - wr.length) (0 : UInt8)).length =
      ((wr ++ tail).take (16 - (wr.length - z))).length := by
    rw [length_replicate]
    omega
  rw [hmove, hmoved, blit, hgap, drop_left, take_append_of_le_length (by omega),
    take_take, Nat.min_eq_left (by omega), take_append_of_le_length hz]

theorem finish_gap_last {z : Nat} (h : Clean dst s pos wr (some z) numSeg) (hz : z ≤ wr.length)
    (hlen : wr.length ≤ 16) (hdst : dst.length = 16) (hpos : pos < 2 ^ 64) :
    ip6Finish s = (pos, wr.take z ++ replicate (16 - wr.length) 0 ++ wr.drop z) := by
  have hptr : (s.strPtr % 2 ^ 64).toNat = pos := by
    rw [h.strPtr]
    omega
  have hfill := @gap_fill wr (dst.drop wr.length) (by rw [length_drop]; omega) z hz
  unfold ip6Finish
  rw [if_neg (fun hne => hne h.numHex)]
  dsimp only
  rw [h.zeroPtr_eq]
  dsimp only
  rw [h.dst_eq, h.dstPtr, hfill, hptr]

end CDbK8s.Inet
