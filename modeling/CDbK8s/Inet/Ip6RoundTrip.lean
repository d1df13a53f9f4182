import CDbK8s.Inet.Ip6Fields
import CDbK8s.Inet.ZeroRuns

/-!
# IPv6 addresses as text and back

`decode_groups` and `decode_gap` say what `ip6_str_decode` makes of eight groups, and of groups
with a gap. `zeroScan_spec` is what the search of `ip6_str_encode` finds: a run of zero values
that ends at the end of the address or in front of a value that is not zero.
-/

namespace CDbK8s.Inet

open Base List

variable {l n p : Nat}
variable {addr : Bytes}

/-! ## Decoding groups -/

def groups : List Nat → Bytes
  | [] => []
  | val :: vals => uint16Toax val ++ colonGroups vals

theorem length_uint16Toax_le (val : Nat) : (uint16Toax val).length ≤ 4 := by
  rw [uint16Toax_eq, length_map]
  exact (length_nibbles val).2

theorem isGroup_uint16Toax (val : Nat) : IsGroup (uint16Toax val) := by
  obtain ⟨ch, rest, htext, -⟩ := head_uint16Toax val
  refine ⟨fun _ hch' => ?_, by rw [htext]; exact cons_ne_nil _ _, length_uint16Toax_le val⟩
  rw [uint16Toax_eq] at hch'
  obtain ⟨d, hd, rfl⟩ := mem_map.1 hch'
  exact isHex_hexDigit (nibbles_lt hd)

theorem hexValue_uint16Toax {val : Nat} (hval : val < 2 ^ 16) : hexValue (uint16Toax val) = val := by
  have hdigits : ∀ (acc : Nat) (d : Nat), d ∈ nibbles val →
      acc * 16 + digitValue (hexDigit d) = acc * 16 + d := by
    intro acc d hd
    rw [digitValue_hexDigit (nibbles_lt hd)]
  rw [hexValue, uint16Toax_eq, foldl_map, foldl_ext _ _ _ hdigits, foldl_nibbles hval]

theorem groups_eq_joined (vals : List Nat) : groups vals = joined (vals.map uint16Toax) := by
  cases vals with
  | nil => rfl
  | cons val vals =>
    rw [groups]
    induction vals generalizing val with
    | nil => rw [map_singleton, joined_one]; exact append_nil _
    | cons v vals ih =>
      have hcons : colonGroups (v :: vals) = 58 :: (uint16Toax v ++ colonGroups vals) := rfl
      simp [hcons, ih, joined_cons_cons]

theorem isGroup_map (vals : List Nat) : ∀ g ∈ vals.map uint16Toax, IsGroup g := by
  rintro g hg
  obtain ⟨val, -, rfl⟩ := mem_map.1 hg
  exact isGroup_uint16Toax val

theorem length_groups_le (vals : List Nat) : (groups vals).length ≤ 5 * vals.length := by
  have hle := length_joined_le (isGroup_map vals)
  rw [length_map] at hle
  rw [groups_eq_joined]
  exact hle

theorem hexValue_map {vals : List Nat} (hvals : ∀ v ∈ vals, v < 2 ^ 16) :
    (vals.map uint16Toax).map hexValue = vals := by
  rw [map_map]
  exact (map_congr_left fun v hv => hexValue_uint16Toax (hvals v hv)).trans (map_id _)

theorem decode_groups (under : UInt8) {dst : Bytes} (hdst : dst.length = 16) {vals : List Nat}
    (hvals : ∀ v ∈ vals, v < 2 ^ 16) (hlen : vals.length = 8) :
    ip6StrDecode (groups vals) under dst = ((groups vals).length, encWords vals) := by
  refine HexForm.decode (.inl ⟨vals.map uint16Toax, isGroup_map _, ?_, groups_eq_joined _, ?_⟩)
    under hdst
  · rw [length_map, hlen]
  · rw [hexValue_map hvals]

theorem decode_gap (under : UInt8) {dst : Bytes} (hdst : dst.length = 16) {front back : List Nat}
    (hfront : ∀ v ∈ front, v < 2 ^ 16) (hback : ∀ v ∈ back, v < 2 ^ 16)
    (hlen : front.length + back.length ≤ 7) :
    ip6StrDecode (groups front ++ 58 :: 58 :: groups back) under dst =
      ((groups front ++ 58 :: 58 :: groups back).length,
        encWords front ++ replicate (16 - 2 * (front.length + back.length)) 0 ++
          encWords back) := by
  refine HexForm.decode (.inr ⟨front.map uint16Toax, back.map uint16Toax, isGroup_map _,
    isGroup_map _, ?_, ?_, ?_⟩) _ hdst
  · simp
    omega
  · simp [groups_eq_joined]
  · simp [hexValue_map hfront, hexValue_map hback]

/-! ## The values of an address -/

/-- The values from the `k`-th on, `n` of them. -/
def words (addr : Bytes) (k n : Nat) : List Nat := (range' k n).map fun j => word addr (2 * j)

theorem words_succ (addr : Bytes) (k n : Nat) :
    words addr k (n + 1) = word addr (2 * k) :: words addr (k + 1) n := rfl

theorem words_add (addr : Bytes) (k n m : Nat) :
    words addr k (n + m) = words addr k n ++ words addr (k + n) m := by
  unfold words
  simp [← map_append]

theorem length_words (addr : Bytes) (k n : Nat) : (words addr k n).length = n := by
  simp [words]

theorem word_eq (addr : Bytes) (i : Nat) :
    word addr i = (addr.getD i 0).toNat * 256 + (addr.getD (i + 1) 0).toNat := by
  have hlow : (addr.getD (i + 1) 0).toNat < 2 ^ 8 := (addr.getD _ 0).toNat_lt
  rw [word, ← Nat.shiftLeft_add_eq_or_of_lt hlow, Nat.shiftLeft_eq]

theorem words_lt {k v : Nat} (hv : v ∈ words addr k n) : v < 2 ^ 16 := by
  obtain ⟨j, -, rfl⟩ := mem_map.1 hv
  have hhigh := (addr.getD (2 * j) 0).toNat_lt
  have hlow := (addr.getD (2 * j + 1) 0).toNat_lt
  rw [word_eq]
  omega

theorem encU16_word (addr : Bytes) (i : Nat) :
    encU16 (word addr i) = [addr.getD i 0, addr.getD (i + 1) 0] := by
  have hlow : (addr.getD (i + 1) 0).toNat < 256 := (addr.getD _ 0).toNat_lt
  have hdiv : word addr i >>> 8 = (addr.getD i 0).toNat := by
    rw [word_eq]
    omega
  have hmod : UInt8.ofNat (word addr i) = addr.getD (i + 1) 0 := by
    rw [word_eq, ← UInt8.toNat_inj, UInt8.toNat_ofNat']
    omega
  simp [encU16, hdiv, hmod]

theorem encWords_words (hlen : 2 * n ≤ addr.length) :
    encWords (words addr 0 n) = addr.take (2 * n) := by
  induction n generalizing addr with
  | zero => rfl
  | succ n ih =>
    match addr, hlen with
    | a :: b :: rest, hlen =>
      have hrest : words (a :: b :: rest) 1 n = words rest 0 n := by
        unfold words
        have hshift : range' 1 n = (range' 0 n).map (1 + ·) := by
          rw [map_add_range']
        rw [hshift, map_map]
        refine map_congr_left fun j _ => ?_
        have hidx : 2 * (1 + j) = 2 * j + 2 := by omega
        show word (a :: b :: rest) (2 * (1 + j)) = word rest (2 * j)
        rw [hidx]
        rfl
      have hcons : encWords (words (a :: b :: rest) 0 (n + 1)) =
          encU16 (word (a :: b :: rest) 0) ++ encWords (words (a :: b :: rest) 1 n) := rfl
      rw [hcons, hrest, ih (by rw [length_cons, length_cons] at hlen; omega), encU16_word]
      rfl

/-! ## The run of zeros -/

/-- The values `p, …, p + l - 1` are zero, and the value behind them, if it is one of the
first `n`, is not. -/
structure Run (addr : Bytes) (n p l : Nat) : Prop where
  fits : p + l ≤ n
  zero : ∀ j, p ≤ j → j < p + l → word addr (2 * j) = 0
  stops : p + l < n → word addr (2 * (p + l)) ≠ 0

theorem zeroScan_spec (addr : Bytes) : (zeroScan addr).zeroLen = 0 ∨
      ∃ p l : Nat, (zeroScan addr).zeroPos = 2 * p ∧ (zeroScan addr).zeroLen = 2 * l ∧
        Run addr 8 p l := by
  obtain ⟨l, hlen, hrun, hall⟩ := zeroScan_longest _
  by_cases hl : 0 < l
  · obtain ⟨p, hpos, hlongest⟩ := hrun hl
    refine .inr ⟨p, l, hpos, hlen, hlongest.zeros.1, hlongest.zeros.2, fun hlt hzero => ?_⟩
    -- a zero behind the run would make it longer
    have hmore : ZeroGroups addr 8 p (l + 1) := by
      refine ⟨hlt, fun j hge _ => ?_⟩
      by_cases hlast : j = p + l
      · rw [hlast]
        exact hzero
      · exact hlongest.zeros.2 j hge (by omega)
    exact absurd (hall p _ hmore) (Nat.not_succ_le_self l)
  · exact .inl (by omega)

theorem Run.words_eq (h : Run addr n p l) : words addr p l = replicate l 0 := by
  refine eq_replicate_iff.2 ⟨length_words _ p l, fun v hv => ?_⟩
  obtain ⟨j, hj, rfl⟩ := mem_map.1 hv
  rw [mem_range'_1] at hj
  exact h.zero j hj.1 hj.2

theorem encWords_zeros (l : Nat) : encWords (replicate l 0) = replicate (2 * l) 0 := by
  induction l with
  | zero => rfl
  | succ l ih =>
    have hcons : encWords (replicate (l + 1) 0) = [0, 0] ++ encWords (replicate l 0) := rfl
    rw [hcons, ih, Nat.mul_succ, add_comm, replicate_add]
    rfl

/-! ## Printing -/

section
variable (addr : Bytes) (zeroPos : Int) (zeroLen : Nat)

theorem print_colons {k : Nat} (hk : 0 < k) (m fuel : Nat) (hend : k + m ≤ 8)
    (hrun : ∀ j, k ≤ j → j < k + m → ((2 * j : Nat) : Int) ≠ zeroPos) :
    printWords addr zeroPos zeroLen 16 (fuel + m) (2 * k) =
      colonGroups (words addr k m) ++ printWords addr zeroPos zeroLen 16 fuel (2 * (k + m)) := by
  induction m generalizing k with
  | zero => rfl
  | succ m ih =>
    have hnext := ih (Nat.succ_pos k) (by omega) fun j _ _ => hrun j (by omega) (by omega)
    have hidx : 2 * k + 2 = 2 * (k + 1) := by omega
    have hlast : k + 1 + m = k + (m + 1) := by omega
    rw [← add_assoc, printWords, if_pos (by omega), if_neg (hrun k (Nat.le_refl k) (by omega)),
      if_pos (by omega), hidx, hnext, hlast, words_succ]
    simp [colonGroups]

theorem print_first {m : Nat} (hm : 0 < m) (fuel : Nat) (hend : m ≤ 8)
    (hrun : ∀ j, j < m → ((2 * j : Nat) : Int) ≠ zeroPos) :
    printWords addr zeroPos zeroLen 16 (fuel + m) 0 =
      groups (words addr 0 m) ++ printWords addr zeroPos zeroLen 16 fuel (2 * m) := by
  obtain ⟨m, rfl⟩ := Nat.exists_eq_succ_of_ne_zero hm.ne'
  have hnext := print_colons addr _ zeroLen Nat.one_pos m fuel (by omega)
    fun j _ _ => hrun j (by omega)
  have hlast : 1 + m = m + 1 := by omega
  rw [Nat.succ_eq_add_one, ← add_assoc, printWords, if_pos (by omega),
    if_neg (hrun 0 (by omega)), words_succ, groups]
  rw [hlast] at hnext
  rw [hnext]
  simp

theorem print_end (fuel : Nat) : printWords addr zeroPos zeroLen 16 fuel 16 = [] := by
  cases fuel <;> rfl

theorem print_all : printWords addr (-1) zeroLen 16 8 0 = groups (words addr 0 8) := by
  have hall := print_first addr (-1) zeroLen (by decide : 0 < 8) 0 (Nat.le_refl 8)
    fun j _ => by omega
  simp [hall, print_end]

theorem print_jump (hl : 0 < l) (hfits : p + l ≤ 8) :
    printWords addr ((2 * p : Nat) : Int) (2 * l) 16 (8 - p) (2 * p) =
      58 :: 58 :: groups (words addr (p + l) (8 - (p + l))) := by
  obtain ⟨fuel, hfuel⟩ := Nat.exists_eq_succ_of_ne_zero (by omega : 8 - p ≠ 0)
  rw [hfuel, printWords, if_pos (by omega), if_pos rfl]
  dsimp only
  by_cases hend : p + l = 8
  · rw [if_pos (by omega), hend]
    rfl
  · obtain ⟨m, hm⟩ := Nat.exists_eq_succ_of_ne_zero (by omega : 8 - (p + l) ≠ 0)
    have hstart : 2 * p + 2 * l = 2 * (p + l) := by omega
    have hnext : 2 * p + 2 * l + 2 = 2 * (p + l + 1) := by omega
    have hlast : 2 * (p + l + 1 + m) = 16 := by omega
    have hsplit : fuel = (fuel - m) + m := by omega
    have hrest := print_colons addr ((2 * p : Nat) : Int) (2 * l) (Nat.succ_pos (p + l)) m (fuel - m)
      (by omega) fun j _ _ => by omega
    rw [← hsplit, hlast, print_end, append_nil] at hrest
    rw [if_neg (by omega), hnext, hrest, hstart, hm]
    rfl

theorem print_run (hl : 0 < l) (hfits : p + l ≤ 8) :
    printWords addr ((2 * p : Nat) : Int) (2 * l) 16 8 0 =
      groups (words addr 0 p) ++ 58 :: 58 :: groups (words addr (p + l) (8 - (p + l))) := by
  have hjump := print_jump addr hl hfits
  by_cases hp : p = 0
  · subst hp
    exact hjump
  · have hfirst := print_first addr ((2 * p : Nat) : Int) (2 * l) (Nat.pos_of_ne_zero hp) (8 - p)
      (by omega) fun j _ => by omega
    have hfuel : 8 - p + p = 8 := by omega
    rw [hfuel, hjump] at hfirst
    exact hfirst

end

/-! ## The round trip -/

/-- The address starts with ten zero bytes and then `ff ff`. -/
def Mapped (addr : Bytes) : Prop :=
  addr.take 10 = replicate 10 0 ∧ addr.getD 10 0 = 0xff ∧ addr.getD 11 0 = 0xff

/-- The run of zero values at the start of the address has exactly twelve bytes. -/
def Compatible (addr : Bytes) : Prop :=
  addr.take 12 = replicate 12 0 ∧ word addr 12 ≠ 0

theorem Run.take_eq (h : Run addr n 0 l) (hlen : 2 * l ≤ addr.length) :
    addr.take (2 * l) = replicate (2 * l) 0 := by
  rw [← encWords_words hlen, h.words_eq, encWords_zeros]

theorem not_dotted (haddr : addr.length = 16) {flags : UInt32}
    (hform : flags &&& IP6_STR_NOIPV4 ≠ 0 ∨ ¬ Mapped addr ∧ ¬ Compatible addr)
    (hrun : Run addr 8 p l) : isDotted addr flags (2 * p : Nat) (2 * l) = false := by
  unfold isDotted
  rcases hform with hflag | ⟨hmapped, hcompat⟩
  · simp [hflag]
  · by_contra hdotted
    simp only [Bool.not_eq_false, Bool.and_eq_true, Bool.or_eq_true, beq_iff_eq] at hdotted
    obtain ⟨⟨-, hpos⟩, hlen⟩ := hdotted
    have hp : p = 0 := by omega
    subst hp
    rcases hlen with ⟨⟨hlen, hten⟩, heleven⟩ | hlen
    · have htake := hrun.take_eq (by omega)
      rw [hlen] at htake
      exact hmapped ⟨htake, hten, heleven⟩
    · have htake := hrun.take_eq (by omega)
      have hl : l = 6 := by omega
      subst hl
      exact hcompat ⟨htake, hrun.stops (by omega)⟩

theorem encode_hex {flags : UInt32} (hbrack : flags &&& IP6_STR_ADDBRACK = 0) {len : Nat}
    (hlen : IP6_ADDR_STRLEN ≤ len) {zeroPos : Int}
    (hpos : (if (zeroScan addr).zeroLen ≤ 2 then -1 else (zeroScan addr).zeroPos) = zeroPos)
    (hdotted : isDotted addr flags zeroPos (zeroScan addr).zeroLen = false) :
    ip6StrEncode addr flags len = ((printWords addr zeroPos (zeroScan addr).zeroLen 16 8 0).length,
        printWords addr zeroPos (zeroScan addr).zeroLen 16 8 0) := by
  unfold ip6StrEncode
  dsimp only
  rw [hpos, hdotted, hbrack]
  simp only [bne_self_eq_false, Bool.false_eq_true, if_false, Bool.false_and, nil_append]
  rw [if_neg (by omega)]

/-- The text of an address that is not printed with an IPv4 part, read by `ip6_str_decode`
with the length that `ip6_str_encode` returned, gives that length and the address. -/
theorem ip6_text_round_trip {addr : Bytes} (haddr : addr.length = 16) {flags : UInt32}
    (hbrack : flags &&& IP6_STR_ADDBRACK = 0)
    (hform : flags &&& IP6_STR_NOIPV4 ≠ 0 ∨ ¬ Mapped addr ∧ ¬ Compatible addr) {len : Nat}
    (hlen : IP6_ADDR_STRLEN ≤ len) (under : UInt8) {dst : Bytes} (hdst : dst.length = 16) :
    ip6StrDecode ((ip6StrEncode addr flags len).2.take (ip6StrEncode addr flags len).1) under dst =
      ((ip6StrEncode addr flags len).1, addr) := by
  have hall : encWords (words addr 0 8) = addr := by
    rw [encWords_words (by omega), take_of_length_le (by omega)]
  by_cases hshort : (zeroScan addr).zeroLen ≤ 2
  · -- no run is left out
    have hdotted : isDotted addr flags (-1) (zeroScan addr).zeroLen = false := by simp [isDotted]
    have htext := encode_hex hbrack hlen (if_pos hshort) hdotted
    rw [htext, print_all, take_length, decode_groups _ hdst (fun v hv => words_lt hv)
      (length_words _ 0 8), hall]
  · rcases zeroScan_spec addr with hzero | ⟨p, l, hpos, hzlen, hrun⟩
    · omega
    · have hfits := hrun.fits
      have hcast : (2 * p : Int) = ((2 * p : Nat) : Int) := by push_cast; rfl
      have htext := encode_hex hbrack hlen ((if_neg hshort).trans (hpos.trans hcast))
        (by rw [hzlen]; exact not_dotted haddr hform hrun)
      rw [htext, hzlen, print_run _ (by omega) hfits, take_length,
        decode_gap _ hdst (fun v hv => words_lt hv) (fun v hv => words_lt hv)
          (by rw [length_words, length_words]; omega)]
      have hgap : 16 - 2 * (p + (8 - (p + l))) = 2 * l := by omega
      have hback : 8 = p + l + (8 - (p + l)) := by omega
      have hparts : addr = encWords (words addr 0 p) ++ replicate (2 * l) 0 ++
          encWords (words addr (p + l) (8 - (p + l))) := by
        rw [← encWords_zeros, ← hrun.words_eq]
        calc
          addr = encWords (words addr 0 (p + l + _)) := by rw [← hback, hall]
          _ = encWords _ ++ encWords _ ++ encWords _ := by
            simp [words_add, encWords_append]
      simp [length_words, hgap, ← hparts]

def loopback : Bytes := [0, 0, 0, 0, 0, 0, 0, 0, 0, 0, 0, 0, 0, 0, 0, 1]

theorem loopback_text_round_trip : ip6StrEncode loopback 0 46 = (3, [58, 58, 49]) ∧
      ip6StrDecode [58, 58, 49] 0 (replicate 16 0) = (3, loopback) := by
  have htext : ip6StrEncode loopback 0 46 = (3, [58, 58, 49]) := by decide +kernel
  have hform : ¬ Mapped loopback ∧ ¬ Compatible loopback := by
    unfold Mapped Compatible
    decide
  have htrip := @ip6_text_round_trip _ rfl 0 rfl (.inr hform) 46 le_rfl 0 (replicate 16 0) rfl
  exact ⟨htext, htrip⟩

end CDbK8s.Inet
