import CDbK8s.Inet.Ip6Dotted

/-!
# Numbers as text

`uint16_toa` of `str_util.h`, and `itoa`, `u32toa`, `int_tostr` and `u32_tostr` of `util.c`. The
last four write the digits from the end of a buffer down, with no check of where it starts. An
address is an offset from the first of the sixteen static slots, and what is in front of them has
negative ones.
-/

namespace CDbK8s.Inet

open Base List Function

/-! ## The functions -/

def uint16Toa (val : Nat) : Bytes :=
  (if val ≥ 10000 then [UInt8.ofNat (val / 10000 + 48)] else []) ++
    (if val ≥ 1000 then [UInt8.ofNat (val / 1000 % 10 + 48)] else []) ++
    (if val ≥ 100 then [UInt8.ofNat (val / 100 % 10 + 48)] else []) ++
    (if val ≥ 10 then [UInt8.ofNat (val / 10 % 10 + 48)] else []) ++ [UInt8.ofNat (val % 10 + 48)]

/-- A memory of characters and the addresses that were written. -/
structure CharMem where
  bytes : Int → UInt8
  writes : List Int

/-- `*ptr = ch`. -/
def CharMem.put (m : CharMem) (ptr : Int) (ch : UInt8) : CharMem :=
  ⟨update m.bytes ptr ch, m.writes ++ [ptr]⟩

/-- The loop of `itoa` and `u32toa`, for `fuel` digits at most. -/
def digitLoop : Nat → Int → Int → CharMem → Option (Int × CharMem)
  | fuel, val, str, m =>
    if val = 0 then some (str, m)
    else
      match fuel with
      | 0 => none
      | fuel + 1 =>
        digitLoop fuel (val.tdiv 10) (str - 1) (m.put (str - 1) (UInt8.ofNat (val.tmod 10 + 48).toNat))

/-- `itoa` into the `len` bytes at `buf`: the start of the text. A 32-bit number has at most ten
digits. -/
def itoa (val buf : Int) (len : Nat) (m : CharMem) : Option (Int × CharMem) :=
  if len = 0 then some (buf, m)
  else
    let str := buf + len - 1
    let m := m.put str 0
    if val = 0 then digitLoop 10 val (str - 1) (m.put (str - 1) 48) else digitLoop 10 val str m

/-- `u32toa`, with the loop of `itoa`. -/
def u32toa (val : UInt32) (buf : Int) (len : Nat) (m : CharMem) : Option (Int × CharMem) :=
  itoa val.toNat buf len m

/-- `bufs` and `idx` of `int_tostr` or of `u32_tostr`. -/
structure NumBufs where
  bytes : Int → UInt8
  idx : Nat
  idx_lt : idx < 16

/-- What a call returns, where it has written, and the buffers behind it. -/
structure Printed where
  str : Int
  writes : List Int
  bufs : NumBufs

/-- A call that prints with `print` into the slot of `idx`. -/
def NumBufs.call (s : NumBufs) (print : Int → CharMem → Option (Int × CharMem)) : Option Printed :=
  (print (10 * s.idx) ⟨s.bytes, []⟩).map fun r =>
    ⟨r.1, r.2.writes, ⟨r.2.bytes, (s.idx + 1) &&& 15, Nat.lt_succ_of_le Nat.and_le_right⟩⟩

/-- `int_tostr`, with `sizeof(bufs[0])`. -/
def intTostr (val : Int) (s : NumBufs) : Option Printed := s.call fun buf => itoa val buf 10

/-- `u32_tostr`, with `sizeof(bufs[0][0])`. -/
def u32Tostr (val : UInt32) (s : NumBufs) : Option Printed := s.call fun buf => u32toa val buf 1

/-- All that was written is in the slot of `idx`. -/
def Printed.InSlot (p : Printed) (idx : Nat) : Prop :=
  ∀ a ∈ p.writes, 10 * (idx : Int) ≤ a ∧ a < 10 * idx + 10

/-- The bytes from an address on. -/
def ReadsAt (bytes : Int → UInt8) : Int → Bytes → Prop
  | _, [] => True
  | a, b :: bs => bytes a = b ∧ ReadsAt bytes (a + 1) bs

/-! ## Digits -/

theorem decText_eq (val : Nat) :
    decText val = (if val < 10 then [] else decText (val / 10)) ++ [UInt8.ofNat (val % 10 + 48)] := by
  have hdigit : ∀ d < 10, UInt8.ofNat (Nat.digitChar d).toNat = UInt8.ofNat (d + 48) := by decide
  unfold decText
  rw [Nat.toDigits_eq_if (by decide)]
  split
  · rename_i hlt
    simp [hdigit _ hlt, Nat.mod_eq_of_lt hlt]
  · simp [hdigit _ (Nat.mod_lt _ (by decide))]

theorem uint16Toa_decText {val : Nat} (hval : val < 2 ^ 16) : uint16Toa val = decText val := by
  rw [uint16Toa, decText_eq val, decText_eq, decText_eq, decText_eq, decText_eq]
  simp only [Nat.div_div_eq_div_mul]
  have hfirst : val / 10000 % 10 = val / 10000 := Nat.mod_eq_of_lt (by omega)
  split_ifs <;> first | omega | simp [hfirst]

theorem ReadsAt.update {bytes : Int → UInt8} {a p : Int} {bs : Bytes} (h : ReadsAt bytes a bs)
    (hp : p < a) (b : UInt8) : ReadsAt (update bytes p b) a bs := by
  induction bs generalizing a with
  | nil => trivial
  | cons c bs ih => exact ⟨(update_of_ne (by omega) b _).trans h.1, ih h.2 (by omega)⟩

theorem digitLoop_spec : ∀ (fuel n : Nat) (str : Int) (m : CharMem) (bs : Bytes), n < 10 ^ fuel →
    ReadsAt m.bytes str bs →
    ∃ m', digitLoop fuel n str m = some (str - (if n = 0 then [] else decText n).length, m') ∧
      ReadsAt m'.bytes (str - (if n = 0 then [] else decText n).length)
        ((if n = 0 then [] else decText n) ++ bs) ∧
      ∀ a, a ∈ m'.writes ↔
        a ∈ m.writes ∨ str - (if n = 0 then [] else decText n).length ≤ a ∧ a < str := by
  intro fuel
  induction fuel with
  | zero =>
    intro n str m bs hn h
    obtain rfl : n = 0 := by omega
    exact ⟨m, by simp [digitLoop], by simpa using h, fun a => (or_iff_left (by simp)).symm⟩
  | succ fuel ih =>
    intro n str m bs hn h
    by_cases hzero : n = 0
    · subst hzero
      exact ⟨m, by simp [digitLoop], by simpa using h, fun a => (or_iff_left (by simp)).symm⟩
    · have hbs : ReadsAt (m.put (str - 1) (UInt8.ofNat (n % 10 + 48))).bytes (str - 1)
          (UInt8.ofNat (n % 10 + 48) :: bs) := by
        refine ⟨update_self .., ?_⟩
        rw [sub_add_cancel]
        exact h.update (by omega) _
      obtain ⟨m', hrun, hreads, hwrites⟩ := ih _ _ _ _
        (Nat.div_lt_of_lt_mul (by rw [← Nat.pow_succ']; exact hn)) hbs
      have htext : decText n =
          (if n / 10 = 0 then [] else decText (n / 10)) ++ [UInt8.ofNat (n % 10 + 48)] := by
        rw [decText_eq n]
        exact congrArg (· ++ _) (if_congr (by omega) rfl rfl)
      have hstr : str - (decText n).length =
          str - 1 - (if n / 10 = 0 then [] else decText (n / 10)).length := by
        simp [htext]
        omega
      rw [if_neg hzero, hstr]
      refine ⟨m', ?_, ?_, fun a => ?_⟩
      · rw [digitLoop, if_neg (by omega)]
        exact hrun
      · rw [htext, append_assoc]
        exact hreads
      · rw [hwrites, CharMem.put, mem_append, mem_singleton, or_assoc]
        exact or_congr_right (by omega)

theorem decText_ne_nil (val : Nat) : decText val ≠ [] := by
  rw [decText_eq]
  simp

/-- A number of up to ten digits is in front of the last of the bytes at `buf`, which is NUL. -/
theorem itoa_spec {n len : Nat} (hn : n < 10 ^ 10) (hlen : len ≠ 0) (buf : Int) (m : CharMem) :
    ∃ m', itoa n buf len m = some (buf + len - 1 - (decText n).length, m') ∧
      ReadsAt m'.bytes (buf + len - 1 - (decText n).length) (decText n ++ [0]) ∧
      ∀ a, a ∈ m'.writes ↔ a ∈ m.writes ∨
        buf + len - 1 - (decText n).length ≤ a ∧ a ≤ buf + len - 1 := by
  have hnul : ReadsAt (m.put (buf + len - 1) 0).bytes (buf + len - 1) [0] :=
    ⟨update_self .., trivial⟩
  rw [itoa, if_neg hlen]
  by_cases hzero : n = 0
  · subst hzero
    have hbs : ReadsAt ((m.put (buf + len - 1) 0).put (buf + len - 1 - 1) 48).bytes
        (buf + len - 1 - 1) [48, 0] := by
      refine ⟨update_self .., ?_⟩
      rw [sub_add_cancel]
      exact hnul.update (by omega) _
    refine ⟨_, by simp [digitLoop, decText], hbs, fun a => ?_⟩
    show a ∈ (m.writes ++ [_]) ++ [_] ↔ _ ∨ _ - ((1 : Nat) : Int) ≤ a ∧ _
    rw [mem_append, mem_append, mem_singleton, mem_singleton, or_assoc]
    exact or_congr_right (by omega)
  · obtain ⟨m', hrun, hreads, hwrites⟩ := digitLoop_spec 10 n _ _ _ hn hnul
    rw [if_neg hzero] at hrun hreads hwrites
    refine ⟨m', ?_, hreads, fun a => ?_⟩
    · rw [if_neg (by omega)]
      exact hrun
    · rw [hwrites, CharMem.put, mem_append, mem_singleton, or_assoc]
      exact or_congr_right (by omega)

/-- Both functions return the number in decimal. `int_tostr` stays in its slot just for numbers of
at most nine digits, and `u32_tostr` for none: it takes the slot for one byte long. -/
theorem number_text_iff (s : NumBufs) : (∀ v : Nat, v < 2 ^ 31 → ∃ p, intTostr v s = some p ∧
      ReadsAt p.bufs.bytes p.str (decText v ++ [0]) ∧ (p.InSlot s.idx ↔ v < 10 ^ 9)) ∧
    ∀ v : UInt32, ∃ p, u32Tostr v s = some p ∧
      ReadsAt p.bufs.bytes p.str (decText v.toNat ++ [0]) ∧ ¬ p.InSlot s.idx := by
  refine ⟨fun v _ => ?_, fun v => ?_⟩
  · obtain ⟨m', hrun, hreads, hwrites⟩ := @itoa_spec v 10 (by omega) (by decide) _ ⟨s.bytes, []⟩
    have hdigits : (decText v).length ≤ 9 ↔ v < 10 ^ 9 := by
      rw [decText, length_map]
      exact Nat.length_toDigits_le_iff (by decide) (by decide)
    refine ⟨_, congrArg _ hrun, hreads, ?_⟩
    rw [Printed.InSlot]
    simp only [hwrites, not_mem_nil, false_or]
    constructor
    · intro h
      have := h _ ⟨le_rfl, by omega⟩
      omega
    · omega
  · obtain ⟨m', hrun, hreads, hwrites⟩ :=
      @itoa_spec _ 1 (v.toNat_lt.trans (by decide)) (by decide) _ ⟨s.bytes, []⟩
    refine ⟨_, congrArg _ hrun, hreads, fun h => ?_⟩
    have hlow := h _ ((hwrites _).2 (.inr ⟨le_rfl, by omega⟩))
    have := length_pos_iff.2 (decText_ne_nil v.toNat)
    omega

/-- The buffers before the first call. -/
def NumBufs.zero : NumBufs := ⟨fun _ => 0, 0, by decide⟩

/-- The first digit of the largest `int`, and the digit of 0, are written in front of the slot. -/
theorem largest_int_below_slot :
    ((intTostr 2147483647 .zero).map (·.writes.getLast?)) = some (some (-1)) ∧
      ((u32Tostr 0 .zero).map (·.writes)) = some [0, -1] := by
  decide

end CDbK8s.Inet
