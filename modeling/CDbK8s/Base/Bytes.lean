import Mathlib.Tactic

/-!
# C integers, slices and the string hash

The pieces of `macros.h`, `str_util.h` and `hashmap.h` that every component
shares: conversion to a 32-bit `int`, `size_t` differences, `struct slice`, `memcmp`, `str_cmp`, and
the DJB2a hash.

A `Slice` carries the one fact the program relies on about lengths: an object in
a 64-bit address space is shorter than `2 ^ 62` bytes, so the sum of two lengths
and a small header does not wrap in a `size_t`.
-/

namespace CDbK8s.Base

abbrev Bytes := List UInt8

/-- Conversion of an integer to a 32-bit `int`. -/
def toInt32 (x : Int) : Int := (x + 2 ^ 31) % 2 ^ 32 - 2 ^ 31

/-- A difference in `size_t`, which wraps below zero. -/
def sizeSub (a b : Nat) : Nat := (a + (2 ^ 64 - b % 2 ^ 64)) % 2 ^ 64

/-- The C string at the start of some bytes. -/
def cstr (bs : Bytes) : Bytes := bs.takeWhile (· ≠ 0)

/-- `struct slice` with a non-null pointer: the bytes it refers to. -/
structure Slice where
  bytes : Bytes
  size_lt : bytes.length < 2 ^ 62

/-- `slice.len`. -/
def Slice.len (s : Slice) : Nat := s.bytes.length

/-- `memcmp` of two byte strings over their common length: the difference of the
first two bytes that differ, `0` when none does. -/
def memcmp : Bytes → Bytes → Int
  | a :: as, b :: bs => if a = b then memcmp as bs else (a.toNat : Int) - b.toNat
  | _, _ => 0

/-- `str_cmp(s1, len1, s2, len2)`: on different lengths the common prefix decides
first and then the difference of the lengths, returned as an `int`. -/
def strCmp (s₁ s₂ : Bytes) : Int :=
  if s₁.length ≠ s₂.length then
    let rc := memcmp s₁ s₂
    if rc ≠ 0 then rc else toInt32 ((s₁.length : Int) - s₂.length)
  else memcmp s₁ s₂

/-- `slice_cmpmem(str, mem, len)`, with the `len` bytes at `mem` as a byte string. -/
def sliceCmpmem (str : Slice) (mem : Bytes) : Int := strCmp str.bytes mem

theorem forall_mem_of_all {p : UInt8 → Prop} [DecidablePred p] {bs : Bytes}
    (h : bs.all (fun b => decide (p b)) = true) : ∀ b ∈ bs, p b :=
  fun b hb => of_decide_eq_true (List.all_eq_true.1 h b hb)

theorem memcmp_eq_zero_iff {as bs : Bytes} (h : as.length = bs.length) :
    memcmp as bs = 0 ↔ as = bs := by
  induction as generalizing bs with
  | nil =>
    cases bs with
    | nil => simp [memcmp]
    | cons b bs => simp at h
  | cons a as ih =>
    cases bs with
    | nil => simp at h
    | cons b bs =>
      simp only [List.length_cons, Nat.add_right_cancel_iff] at h
      by_cases hab : a = b
      · simp [memcmp, hab, ih h]
      · have hne : (a.toNat : Int) - b.toNat ≠ 0 := by
          intro _
          exact hab (UInt8.toNat_inj.1 (by omega))
        simp [memcmp, hab, hne]

theorem sliceCmpmem_eq_zero_iff {str : Slice} {mem : Bytes} (h : mem.length = str.len) :
    sliceCmpmem str mem = 0 ↔ mem = str.bytes := by
  have hlen : str.bytes.length = mem.length := h.symm
  rw [sliceCmpmem, strCmp, if_neg (by simp [hlen]), memcmp_eq_zero_iff hlen, eq_comm]

/-- The hash loop of `dbj2a_hash` over the bytes from `data` to `end`. -/
def dbj2aLoop (hash : UInt64) : Bytes → UInt64
  | [] => hash
  | b :: bs => dbj2aLoop (((hash <<< 5) + hash) ^^^ UInt64.ofNat b.toNat) bs

/-- `dbj2a_hash(key, klen)`: the length is passed as an `int`, so a length of
`2 ^ 31` or more arrives reduced, and a negative one hashes no byte. -/
def dbj2aHash (key : Bytes) : UInt64 :=
  dbj2aLoop 5381 (key.take (toInt32 key.length).toNat)

end CDbK8s.Base
