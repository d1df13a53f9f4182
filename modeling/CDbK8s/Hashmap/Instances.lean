import CDbK8s.Hashmap.Table

/-!
# The four instances of the hash map

`hashmap.h` includes the template for `uint32_t` and `uint64_t` keys and for strings with either
value type. A key of a string map is a pointer, and what it stands for is the string it points to in
the memory at the time of a call; the hash and the comparison read that memory.
-/

namespace CDbK8s.Hashmap

open Base

/-! ## Hashes and comparisons -/

/-- `map_hash32`: the upper bits of a multiplicative hash. -/
def mapHash32 (key : UInt32) (bits : Nat) : Nat :=
  let key := key ^^^ (key >>> 16)
  (key * 2654435761).toNat >>> (32 - bits)

/-- `map_hash64`, with the conversion to `uint32_t`. -/
def mapHash64 (key : UInt64) (bits : Nat) : Nat :=
  let key := key ^^^ (key >>> 33)
  ((key * 0x9E3779B97F4A7C15).toNat >>> (64 - bits)) % 2 ^ 32

abbrev CString := { s : Bytes // 0 ∉ s }

theorem zero_notMem_nil : 0 ∉ ([] : Bytes) := List.not_mem_nil

/-- `map_hashstr` of the string at the pointer. -/
def mapHashstr (key : CString) (bits : Nat) : Nat :=
  ((dbj2aHash key.1 * 0x9E3779B97F4A7C15).toNat >>> (64 - bits)) % 2 ^ 32

/-- `strcmp` of two terminated strings. -/
def strcmp : Bytes → Bytes → Int
  | [], [] => 0
  | [], b :: _ => - b.toNat
  | a :: _, [] => a.toNat
  | a :: as, b :: bs => if a = b then strcmp as bs else (a.toNat : Int) - b.toNat

/-- A pointer; 0 is `NULL`. -/
abbrev Ptr := UInt64

/-- `map_streq`: `NULL` equals only itself. -/
def mapStreq (mem : Ptr → CString) (a b : Ptr) : Bool :=
  if a = b then true
  else if a = 0 ∨ b = 0 then false
  else strcmp (mem a).1 (mem b).1 == 0

/-- The template for `hashmap32`. -/
def map32 : Instance UInt32 UInt32 :=
  { zero := 0, top := 0xFFFFFFFF, zeroVal := 0, hash := mapHash32, keyEq := fun a b => a == b }

/-- The template for `hashmap64`. -/
def map64 : Instance UInt64 UInt64 :=
  { zero := 0, top := 0xFFFFFFFFFFFFFFFF, zeroVal := 0, hash := mapHash64
    keyEq := fun a b => a == b }

/-- The template for `hashmap32s` and `hashmap64s` in a memory. -/
def mapStr (Val : Type) (zeroVal : Val) (mem : Ptr → CString) : Instance Ptr Val :=
  { zero := 0, top := 0xFFFFFFFFFFFFFFFF, zeroVal, hash := fun p => mapHashstr (mem p)
    keyEq := mapStreq mem }

/-! ## The laws of the keys -/

theorem toNat_ne_zero {b : UInt8} (hb : b ≠ 0) : b.toNat ≠ 0 := fun h =>
  hb (UInt8.toNat_inj.1 h)

theorem strcmp_eq_zero_iff : ∀ {s1 s2 : Bytes}, 0 ∉ s1 → 0 ∉ s2 → (strcmp s1 s2 = 0 ↔ s1 = s2)
  | [], [], _, _ => by simp [strcmp]
  | [], b :: bs, _, hb => by
    have hne : b.toNat ≠ 0 := toNat_ne_zero fun h => hb (by simp [h])
    simp [strcmp, hne]
  | a :: as, [], ha, _ => by
    have hne : a.toNat ≠ 0 := toNat_ne_zero fun h => ha (by simp [h])
    simp [strcmp, hne]
  | a :: as, b :: bs, ha, hb => by
    rw [List.mem_cons, not_or] at ha hb
    by_cases hab : a = b
    · rw [strcmp, if_pos hab, strcmp_eq_zero_iff ha.2 hb.2]
      simp [hab]
    · have hne : (a.toNat : Int) - b.toNat ≠ 0 := fun h =>
        hab (UInt8.toNat_inj.1 (by omega))
      simp [strcmp, hab, hne]

theorem mapStreq_iff (mem : Ptr → CString) {a b : Ptr} (ha : a ≠ 0) (hb : b ≠ 0) :
    mapStreq mem a b = true ↔ mem a = mem b := by
  unfold mapStreq
  by_cases hab : a = b
  · simp [hab]
  · rw [if_neg hab, if_neg (by simp [ha, hb]), beq_iff_eq,
      strcmp_eq_zero_iff (mem a).2 (mem b).2, Subtype.ext_iff]

theorem shiftRight_lt {x w bits : Nat} (hx : x < 2 ^ w) (hb : bits ≤ w) :
    x >>> (w - bits) < 2 ^ bits := by
  rw [Nat.shiftRight_eq_div_pow, Nat.div_lt_iff_lt_mul (Nat.two_pow_pos _), ← pow_add,
    Nat.add_sub_cancel' hb]
  exact hx

theorem mod_shiftRight_lt {x bits : Nat} (hx : x < 2 ^ 64) (hb : bits ≤ 31) :
    (x >>> (64 - bits)) % 2 ^ 32 < 2 ^ bits :=
  lt_of_le_of_lt (Nat.mod_le _ _) (shiftRight_lt hx (by omega))

/-- An integer key stands for itself, and the stored `-1` for the key `0`. -/
def intAbs {Key Val : Type} [DecidableEq Key] (T : Instance Key Val) (k : Key) : Key :=
  if k = T.top then T.zero else k

theorem intLaws {Key Val : Type} [DecidableEq Key] (T : Instance Key Val)
    (htop : T.top ≠ T.zero) (hkeyEq : ∀ a b, T.keyEq a b = true ↔ a = b)
    (hhash : ∀ k bits, 2 ≤ bits → bits ≤ 31 → T.hash k bits < 2 ^ bits) :
    KeyLaws T (intAbs T) (fun a => T.hash (sanitize T a)) (· ≠ T.top) := by
  refine ⟨htop, fun k hk => hk, fun k hk => ?_, fun a b ha hb => ?_, fun k hk _ => ?_, hhash⟩
  · unfold sanitize
    split
    · rename_i hzero
      simp [intAbs, hzero]
    · rfl
  · rw [hkeyEq, intAbs, intAbs]
    by_cases hat : a = T.top
    · by_cases hbt : b = T.top
      · simp [hat, hbt]
      · simp [hat, hbt, Ne.symm hbt, Ne.symm hb]
    · by_cases hbt : b = T.top
      · simp [hbt, ha]
      · simp [hat, hbt]
  · unfold intAbs sanitize
    by_cases hkt : k = T.top
    · simp [hkt]
    · simp [hkt, hk]

/-- A pointer to a string. No object lies at the last address, since the pointer behind
an object exists. -/
def StrPtr (p : Ptr) : Prop := p ≠ 0 ∧ p ≠ 0xFFFFFFFFFFFFFFFF

theorem strLaws (Val : Type) (zeroVal : Val) (mem : Ptr → CString) :
    KeyLaws (mapStr Val zeroVal mem) mem mapHashstr StrPtr := by
  have htop : (0xFFFFFFFFFFFFFFFF : Ptr) ≠ 0 := by decide
  refine ⟨htop, fun k hk => hk.2, fun k hk => ?_, fun a b ha hb => mapStreq_iff mem ha hb,
    fun k _ bits => rfl, fun k bits _ hle => mod_shiftRight_lt (UInt64.toNat_lt _) hle⟩
  exact congrArg mem (if_neg hk.1)

/-! ## The four templates -/

/-- One inclusion of the template. `Ctx` is the memory its keys point into, and `A`
the keys a caller means. -/
structure Template where
  Ctx : Type
  Key : Type
  Val : Type
  A : Type
  decKey : DecidableEq Key
  decA : DecidableEq A
  inst : Ctx → Instance Key Val
  abs : Ctx → Key → A
  H : A → Nat → Nat
  valid : Key → Prop
  laws : ∀ c, KeyLaws (inst c) (abs c) H valid
  zeroEntry_eq : ∀ c c', (inst c).zeroEntry = (inst c').zeroEntry

instance (t : Template) : DecidableEq t.Key := t.decKey

instance (t : Template) : DecidableEq t.A := t.decA

/-- An integer map: the keys do not point anywhere. -/
def intTemplate {Key Val : Type} [DecidableEq Key] (T : Instance Key Val)
    (htop : T.top ≠ T.zero) (hkeyEq : ∀ a b, T.keyEq a b = true ↔ a = b)
    (hhash : ∀ k bits, 2 ≤ bits → bits ≤ 31 → T.hash k bits < 2 ^ bits) : Template :=
  { Ctx := Unit, Key, Val, A := Key, decKey := inferInstance, decA := inferInstance
    inst := fun _ => T, abs := fun _ => intAbs T, H := fun a => T.hash (sanitize T a)
    valid := (· ≠ T.top), laws := fun _ => intLaws T htop hkeyEq hhash
    zeroEntry_eq := fun _ _ => rfl }

/-- Maps whose keys are strings in memory. -/
def strTemplate (Val : Type) (zeroVal : Val) : Template :=
  { Ctx := Ptr → CString, Key := Ptr, Val, A := CString, decKey := instDecidableEqUInt64
    decA := inferInstance, inst := mapStr Val zeroVal, abs := fun mem => mem, H := mapHashstr
    valid := StrPtr, laws := strLaws Val zeroVal
    zeroEntry_eq := fun _ _ => by simp only [Instance.zeroEntry, mapStr] }

/-- The inclusions of `hashmap_impl.h`. -/
inductive Kind where
  | hashmap32
  | hashmap64
  | hashmap32s
  | hashmap64s

/-- The template of an inclusion. -/
def Kind.template : Kind → Template
  | .hashmap32 => intTemplate map32 (by decide) (fun a b => beq_iff_eq)
      fun k bits _ hle => shiftRight_lt (UInt32.toNat_lt _) (by omega)
  | .hashmap64 => intTemplate map64 (by decide) (fun a b => beq_iff_eq)
      fun k bits _ hle => mod_shiftRight_lt (UInt64.toNat_lt _) hle
  | .hashmap32s => strTemplate UInt32 0
  | .hashmap64s => strTemplate UInt64 0

end CDbK8s.Hashmap
