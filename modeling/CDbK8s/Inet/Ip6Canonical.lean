import CDbK8s.Inet.Ip6RoundTrip

/-!
# Canonical text of an IPv6 address

RFC 5952: the groups in lower-case hex without leading zeros, with two colons for the leftmost of
the longest runs of at least two zero groups. This is what `ip6_str_encode` prints when it is told
not to print an IPv4 part.
-/

namespace CDbK8s.Inet

open Base List

/-! ## The canonical text -/

/-- A group without leading zeros. -/
def hexText (val : Nat) : Bytes := (Nat.toDigits 16 val).map fun c => UInt8.ofNat c.toNat

def joinedHex (vals : List Nat) : Bytes := [58].intercalate (vals.map hexText)

/-- The text of RFC 5952, without an IPv4 part. -/
def Canonical (addr text : Bytes) : Prop :=
  ((∀ q m, ZeroGroups addr 8 q m → m < 2) ∧ text = joinedHex (words addr 0 8)) ∨
    ∃ p l, 2 ≤ l ∧ LongestRun addr p l ∧
      text = joinedHex (words addr 0 p) ++ [58, 58] ++ joinedHex (words addr (p + l) (8 - (p + l)))

/-! ## Digits -/

theorem digitChar_hexDigit {d : Nat} (hd : d < 16) :
    UInt8.ofNat (Nat.digitChar d).toNat = hexDigit d := by
  revert d
  decide

theorem hexText_eq (val : Nat) :
    hexText val = (if val < 16 then [] else hexText (val / 16)) ++ [hexDigit (val % 16)] := by
  unfold hexText
  rw [Nat.toDigits_eq_if (by decide)]
  split
  · rename_i hlt
    simp [digitChar_hexDigit hlt, Nat.mod_eq_of_lt hlt]
  · simp [digitChar_hexDigit (Nat.mod_lt _ (by decide))]

theorem uint16Toax_hexText {val : Nat} (hval : val < 2 ^ 16) : uint16Toax val = hexText val := by
  rw [uint16Toax_eq, nibbles, hexText_eq val]
  by_cases h1 : val < 16
  · rw [if_neg (by omega), if_neg (by omega), if_neg (by omega), if_pos h1]
    rfl
  · rw [if_neg h1, hexText_eq, if_pos (show val ≥ 16 by omega)]
    by_cases h2 : val / 16 < 16
    · rw [if_neg (by omega), if_neg (by omega), if_pos h2]
      rfl
    · rw [if_neg h2, hexText_eq, if_pos (show val ≥ 256 by omega), Nat.div_div_eq_div_mul]
      by_cases h3 : val / (16 * 16) < 16
      · rw [if_neg (by omega), if_pos h3]
        rfl
      · rw [if_neg h3, hexText_eq, if_pos (by omega), Nat.div_div_eq_div_mul, if_pos (by omega)]
        rfl

theorem groups_joinedHex {vals : List Nat} (hvals : ∀ v ∈ vals, v < 2 ^ 16) :
    groups vals = joinedHex vals := by
  induction vals with
  | nil => rfl
  | cons val vals ih =>
    have hrest := ih fun v hv => hvals v (.tail _ hv)
    rw [groups, uint16Toax_hexText (hvals val mem_cons_self)]
    cases vals with
    | nil => simp [colonGroups, joinedHex]
    | cons val' vals =>
      have hcons : joinedHex (val :: val' :: vals) =
          hexText val ++ [58] ++ joinedHex (val' :: vals) := by
        simp [joinedHex]
      rw [hcons, ← hrest, append_assoc]
      rfl

/-! ## What is printed -/

/-- The buffer that `ip6_str_encode` asks for. -/
def neededLen (flags : UInt32) : Nat :=
  if flags &&& IP6_STR_ADDBRACK ≠ 0 then IP6_ADDR_STRLEN + 2 else IP6_ADDR_STRLEN

/-- The text in brackets, if they are asked for. -/
def bracketed (flags : UInt32) (text : Bytes) : Bytes :=
  if flags &&& IP6_STR_ADDBRACK ≠ 0 then [91] ++ text ++ [93] else text

theorem encode_plain {addr : Bytes} {flags : UInt32} {len : Nat} (hlen : neededLen flags ≤ len)
    {zeroPos : Int}
    (hpos : (if (zeroScan addr).zeroLen ≤ 2 then -1 else (zeroScan addr).zeroPos) = zeroPos)
    (hdotted : isDotted addr flags zeroPos (zeroScan addr).zeroLen = false) :
    (ip6StrEncode addr flags len).2 =
        bracketed flags (printWords addr zeroPos (zeroScan addr).zeroLen 16 8 0) ∧
      (ip6StrEncode addr flags len).1 = (ip6StrEncode addr flags len).2.length := by
  unfold ip6StrEncode bracketed
  unfold neededLen at hlen
  dsimp only
  rw [hpos, hdotted]
  by_cases hbrack : flags &&& IP6_STR_ADDBRACK = 0
  · rw [if_neg (not_not.2 hbrack)] at hlen
    simp [hbrack, not_lt.2 hlen]
  · rw [if_pos hbrack] at hlen
    simp [hbrack, not_lt.2 hlen]

theorem noDotted {addr : Bytes} {flags : UInt32} (hflag : flags &&& IP6_STR_NOIPV4 ≠ 0)
    (zeroPos : Int) (zeroLen : Nat) : isDotted addr flags zeroPos zeroLen = false := by
  simp [isDotted, hflag]

/-- What is printed without an IPv4 part is the canonical text, which is short. -/
theorem printed_canonical (addr : Bytes) : ∃ text zeroPos,
      (if (zeroScan addr).zeroLen ≤ 2 then -1 else (zeroScan addr).zeroPos) = zeroPos ∧
      printWords addr zeroPos (zeroScan addr).zeroLen 16 8 0 = text ∧ Canonical addr text ∧
      text.length ≤ 40 := by
  obtain ⟨b, hlen, hrun, hall⟩ := zeroScan_longest _
  by_cases hshort : (zeroScan addr).zeroLen ≤ 2
  · -- at most single groups are zero
    refine ⟨groups _, -1, if_pos hshort, print_all _ _, .inl ⟨?_, ?_⟩, ?_⟩
    · intro q m hzeros
      have hle := hall q m hzeros
      omega
    · exact groups_joinedHex fun v hv => words_lt hv
    · have hle := length_groups_le (words addr 0 8)
      exact hle
  · obtain ⟨p, hpos, hlongest⟩ := hrun (by omega)
    have hfits := hlongest.zeros.1
    refine ⟨groups (words addr 0 p) ++ 58 :: 58 :: groups (words addr (p + b) (8 - (p + b))),
      ((2 * p : Nat) : Int), ?_, ?_, .inr ⟨p, b, by omega, hlongest, ?_⟩, ?_⟩
    · rw [if_neg hshort, hpos]
      rfl
    · rw [hlen]
      exact print_run _ (by omega) hfits
    · rw [groups_joinedHex fun v hv => words_lt hv, groups_joinedHex fun v hv => words_lt hv,
        append_assoc]
      rfl
    · have hfront := length_groups_le (words addr 0 p)
      have hback := length_groups_le (words addr (p + b) (8 - (p + b)))
      rw [length_words] at hfront hback
      simp
      omega

/-- For every address, with `IP6_STR_NOIPV4` and a buffer that is large enough: the text is the
canonical one, in brackets if they are asked for, its length is returned, and with the NUL behind it
at most `IP6_ADDR_STRLEN` bytes are written, or two more with brackets. -/
theorem ip6_text_canonical (addr : Bytes) {flags : UInt32} (hflag : flags &&& IP6_STR_NOIPV4 ≠ 0)
    {len : Nat} (hlen : neededLen flags ≤ len) :
    ∃ text, Canonical addr text ∧
      ip6StrEncode addr flags len = ((bracketed flags text).length, bracketed flags text) ∧
      (bracketed flags text).length + 1 ≤ neededLen flags := by
  obtain ⟨text, zeroPos, hpos, hprint, hcanon, hsmall⟩ := printed_canonical _
  obtain ⟨htext, hret⟩ := encode_plain hlen hpos (noDotted hflag _ _)
  rw [hprint] at htext
  refine ⟨text, hcanon, Prod.ext (hret.trans (congrArg List.length htext)) htext, ?_⟩
  have hmax : IP6_ADDR_STRLEN = 46 := rfl
  unfold bracketed neededLen
  split
  · rw [length_append, length_append]
    show 1 + text.length + 1 + 1 ≤ _
    omega
  · omega

def twoRuns : Bytes := [32, 1, 13, 184, 0, 0, 0, 0, 0, 1, 0, 0, 0, 0, 0, 1]

def twoRunsText : Bytes := [50, 48, 48, 49, 58, 100, 98, 56, 58, 58, 49, 58, 48, 58, 48, 58, 49]

theorem first_run_left_out :
    (ip6StrEncode twoRuns IP6_STR_NOIPV4 46).2 = twoRunsText ∧ Canonical twoRuns twoRunsText := by
  have htext : (ip6StrEncode twoRuns IP6_STR_NOIPV4 46).2 = twoRunsText := by decide +kernel
  obtain ⟨text, hcanon, hret, -⟩ := @ip6_text_canonical _ IP6_STR_NOIPV4 (by decide) 46 (by decide)
  have hsame : text = twoRunsText := by
    rw [← htext, hret]
    rfl
  exact ⟨htext, hsame ▸ hcanon⟩

end CDbK8s.Inet
