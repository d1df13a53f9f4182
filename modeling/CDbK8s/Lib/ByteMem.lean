import Mathlib.Tactic

/-!
# Byte-addressed memory

A memory is a total function from addresses to bytes.
-/

namespace CDbK8s.Lib.ByteMem

open List Function

variable {hi lo : Nat}
variable {bs : List UInt8} {a n : Nat}

abbrev Mem := Nat → UInt8

/-! ## Little-endian words -/

/-- The `n` low-order bytes of `v`, least significant first. -/
def leBytes : Nat → Nat → List UInt8
  | 0, _ => []
  | n + 1, v => UInt8.ofNat v :: leBytes n (v / 256)

/-- The number that bytes write, the lowest first. -/
def ofLe : List UInt8 → Nat
  | [] => 0
  | b :: bs => b.toNat + 256 * ofLe bs

@[simp] theorem length_leBytes (n v : Nat) : (leBytes n v).length = n := by
  induction n generalizing v with
  | zero => rfl
  | succ n ih => simp [leBytes, ih]

theorem ofLe_lt (bs : List UInt8) : ofLe bs < 256 ^ bs.length := by
  induction bs with
  | nil => simp [ofLe]
  | cons b bs _ =>
    have hb : b.toNat < 256 := b.toNat_lt
    have hpow : 256 ^ (b :: bs).length = 256 * 256 ^ bs.length := by
      simp [pow_succ, mul_comm]
    rw [ofLe]
    omega

theorem ofLe_leBytes (n v : Nat) : ofLe (leBytes n v) = v % 256 ^ n := by
  induction n generalizing v with
  | zero => simp [leBytes, ofLe, Nat.mod_one]
  | succ n ih =>
    have hb : (UInt8.ofNat v).toNat = v % 256 := by simp
    rw [leBytes, ofLe, ih, hb, pow_succ, mul_comm (256 ^ n), Nat.mod_mul]

/-! ## Big-endian words -/

/-- The `n` low-order bytes of `v`, most significant first. -/
def beBytes (n v : Nat) : List UInt8 := (leBytes n v).reverse

/-- The number that bytes write, the highest first. -/
def ofBe (bs : List UInt8) : Nat := ofLe bs.reverse

@[simp] theorem length_beBytes (n v : Nat) : (beBytes n v).length = n := by
  simp [beBytes]

theorem ofBe_beBytes (n v : Nat) : ofBe (beBytes n v) = v % 256 ^ n := by
  simp [ofBe, beBytes, ofLe_leBytes]

/-! ## Ranges of bytes -/

/-- The `n` bytes at address `a`. -/
def readBytes (m : Mem) (a : Nat) : Nat → List UInt8
  | 0 => []
  | n + 1 => m a :: readBytes m (a + 1) n

/-- Memory with `bs` stored from address `a` on. -/
def writeBytes (m : Mem) (a : Nat) : List UInt8 → Mem
  | [] => m
  | b :: bs => writeBytes (update m a b) (a + 1) bs

@[simp] theorem length_readBytes (m : Mem) (a n : Nat) : (readBytes m a n).length = n := by
  induction n generalizing a with
  | zero => rfl
  | succ n ih => simp [readBytes, ih]

theorem readBytes_append (m : Mem) (a n k : Nat) :
    readBytes m a (n + k) = readBytes m a n ++ readBytes m (a + n) k := by
  induction n generalizing a with
  | zero => simp [readBytes]
  | succ n ih =>
    have e : n + 1 + k = n + k + 1 := by omega
    have ea : a + 1 + n = a + (n + 1) := by omega
    simp [e, readBytes, ih, ea]

/-- The memory has the bytes `bs` at address `a`. -/
def Holds (m : Mem) (a : Nat) (bs : List UInt8) : Prop := readBytes m a bs.length = bs

theorem holds_cons {m : Mem} {b : UInt8} : Holds m a (b :: bs) ↔ m a = b ∧ Holds m (a + 1) bs := by
  unfold Holds
  simp [readBytes]

theorem holds_append {m : Mem} {cs : List UInt8} :
    Holds m a (bs ++ cs) ↔ Holds m a bs ∧ Holds m (a + bs.length) cs := by
  unfold Holds
  rw [length_append, readBytes_append]
  constructor
  · intro h
    exact append_inj h (length_readBytes m a _)
  · rintro ⟨hbs, hcs⟩
    rw [hbs, hcs]

theorem Holds.getD {m : Mem} {i : Nat} (h : Holds m a bs) (hi : i < bs.length) (d : UInt8) :
    m (a + i) = bs.getD i d := by
  induction bs generalizing a i with
  | nil => exact absurd hi (Nat.not_lt_zero i)
  | cons b bs ih =>
    obtain ⟨hhead, htail⟩ := holds_cons.1 h
    cases i with
    | zero => exact hhead
    | succ i =>
      have hrest := ih htail (Nat.lt_of_succ_lt_succ hi)
      rw [add_right_comm] at hrest
      exact hrest

/-- Two memories hold the same bytes at the addresses `lo ≤ x < hi`. -/
def AgreeOn (m m' : Mem) (lo hi : Nat) : Prop :=
  ∀ x, lo ≤ x → x < hi → m' x = m x

theorem AgreeOn.refl (m : Mem) (lo hi : Nat) : AgreeOn m m lo hi :=
  fun _ _ _ => rfl

theorem AgreeOn.trans {m m' m'' : Mem} (h : AgreeOn m m' lo hi) (h' : AgreeOn m' m'' lo hi) :
    AgreeOn m m'' lo hi :=
  fun x hlo hhi => (h' x hlo hhi).trans (h x hlo hhi)

theorem AgreeOn.mono {m m' : Mem} {lo' hi' : Nat} (h : AgreeOn m m' lo hi) (hlo : lo ≤ lo')
    (hhi : hi' ≤ hi) : AgreeOn m m' lo' hi' :=
  fun x _ _ => h x (by omega) (by omega)

theorem readBytes_congr {m m' : Mem} (h : AgreeOn m m' a (a + n)) :
    readBytes m' a n = readBytes m a n := by
  induction n generalizing a with
  | zero => rfl
  | succ n ih =>
    rw [readBytes, readBytes, h a (by omega) (by omega), ih (h.mono (by omega) (by omega))]

theorem holds_congr {m m' : Mem} (h : Holds m a bs) (hagree : AgreeOn m m' a (a + bs.length)) :
    Holds m' a bs :=
  (readBytes_congr hagree).trans h

theorem readBytes_eq_replicate_iff {m : Mem} {b : UInt8} :
    readBytes m a n = replicate n b ↔ ∀ x, a ≤ x → x < a + n → m x = b := by
  induction n generalizing a with
  | zero => simp [readBytes]; omega
  | succ n ih =>
    rw [readBytes, replicate_succ, List.cons.injEq, ih]
    refine ⟨fun ⟨hhead, htail⟩ x hlo hhi => ?_, fun h => ⟨h a (by omega) (by omega), ?_⟩⟩
    · rcases Nat.eq_or_lt_of_le hlo with rfl | hlt
      · exact hhead
      · exact htail x (by omega) (by omega)
    · exact fun x hlo hhi => h x (by omega) (by omega)

theorem writeBytes_of_outside (m : Mem) (a : Nat) (bs : List UInt8) (x : Nat)
    (hx : x < a ∨ a + bs.length ≤ x) : writeBytes m a bs x = m x := by
  induction bs generalizing m a with
  | nil => rfl
  | cons b bs ih =>
    rw [length_cons] at hx
    rw [writeBytes, ih _ _ (by omega), update_of_ne (by omega)]

theorem readBytes_writeBytes (m : Mem) (a : Nat) (bs : List UInt8) :
    readBytes (writeBytes m a bs) a bs.length = bs := by
  induction bs generalizing m a with
  | nil => rfl
  | cons b bs ih =>
    have hhead : writeBytes (update m a b) (a + 1) bs a = b := by
      rw [writeBytes_of_outside _ _ _ _ (.inl (by omega)), update_self]
    simp [readBytes, writeBytes, hhead, ih]

theorem holds_writeBytes (m : Mem) (a : Nat) (bs : List UInt8) : Holds (writeBytes m a bs) a bs :=
  readBytes_writeBytes m a bs

theorem agreeOn_writeBytes (m : Mem) (a : Nat) (bs : List UInt8) (h : a + bs.length ≤ lo ∨ hi ≤ a) :
    AgreeOn m (writeBytes m a bs) lo hi :=
  fun x _ _ => writeBytes_of_outside m a bs x (by omega)

/-! ## Words -/

/-- The `n`-byte word at address `a`. -/
def readWord (m : Mem) (n a : Nat) : Nat := ofLe (readBytes m a n)

theorem readWord_lt (m : Mem) (n a : Nat) : readWord m n a < 256 ^ n := by
  have h := ofLe_lt (readBytes m a n)
  rwa [length_readBytes] at h

theorem readWord_eq_zero {m : Mem} (h : ∀ x, a ≤ x → x < a + n → m x = 0) : readWord m n a = 0 := by
  rw [readWord, readBytes_eq_replicate_iff.2 h]
  clear h
  induction n with
  | zero => rfl
  | succ n ih => simp [replicate_succ, ofLe, ih]

theorem readWord_congr {m m' : Mem} (h : AgreeOn m m' a (a + n)) :
    readWord m' n a = readWord m n a := by
  simp [readWord, readBytes_congr h]

/-! ## Writes -/

/-- One store: the bytes `bytes` placed at address `addr`. -/
structure Write where
  addr : Nat
  bytes : List UInt8

def Write.stop (w : Write) : Nat := w.addr + w.bytes.length

/-- The store of an `n`-byte word. -/
def wordWrite (n a v : Nat) : Write := ⟨a, leBytes n v⟩

/-- Copying `bs` to address `a` byte by byte, one store per byte. -/
def copyWrites (a : Nat) : List UInt8 → List Write
  | [] => []
  | b :: bs => ⟨a, [b]⟩ :: copyWrites (a + 1) bs

def applyWrite (m : Mem) (w : Write) : Mem := writeBytes m w.addr w.bytes

/-- The memory after some stores, in their order. -/
def applyWrites (m : Mem) (ws : List Write) : Mem := ws.foldl applyWrite m

@[simp] theorem applyWrites_nil (m : Mem) : applyWrites m [] = m := rfl

@[simp] theorem applyWrites_cons (m : Mem) (w : Write) (ws : List Write) :
    applyWrites m (w :: ws) = applyWrites (applyWrite m w) ws := rfl

theorem applyWrites_append (m : Mem) (ws vs : List Write) :
    applyWrites m (ws ++ vs) = applyWrites (applyWrites m ws) vs :=
  foldl_append

/-- The store `w` touches no address of the range `lo ≤ x < hi`. -/
def Write.Avoids (w : Write) (lo hi : Nat) : Prop := w.stop ≤ lo ∨ hi ≤ w.addr

theorem agreeOn_applyWrite {m : Mem} {w : Write} (h : w.Avoids lo hi) :
    AgreeOn m (applyWrite m w) lo hi := by
  intro x _ _
  refine writeBytes_of_outside m _ _ x ?_
  rcases h with h | h
  · rw [Write.stop] at h; omega
  · omega

theorem agreeOn_applyWrites {m : Mem} {ws : List Write} (h : ∀ w ∈ ws, w.Avoids lo hi) :
    AgreeOn m (applyWrites m ws) lo hi := by
  induction ws generalizing m with
  | nil => exact AgreeOn.refl m lo hi
  | cons w ws ih =>
    exact (agreeOn_applyWrite (h w (by simp))).trans (ih fun v hv => h v (by simp [hv]))

theorem readWord_wordWrite (m : Mem) (n a v : Nat) :
    readWord (applyWrite m (wordWrite n a v)) n a = v % 256 ^ n := by
  have h := readBytes_writeBytes m a (leBytes n v)
  rw [length_leBytes] at h
  rw [readWord, applyWrite, wordWrite, h, ofLe_leBytes]

theorem readWord_applyWrites {m : Mem} {ws : List Write} (h : ∀ w ∈ ws, w.Avoids a (a + n)) :
    readWord (applyWrites m ws) n a = readWord m n a :=
  readWord_congr (agreeOn_applyWrites h)

theorem readWord_applyWrites_cons {m : Mem} {vs : List Write} {v : Nat}
    (h : ∀ w ∈ vs, w.Avoids a (a + n)) :
    readWord (applyWrites m (wordWrite n a v :: vs)) n a = v % 256 ^ n := by
  simp [readWord_applyWrites h, readWord_wordWrite]

theorem readWord_applyWrites_wordWrite {m : Mem} {ws vs : List Write} {v : Nat}
    (h : ∀ w ∈ vs, w.Avoids a (a + n)) :
    readWord (applyWrites m (ws ++ wordWrite n a v :: vs)) n a = v % 256 ^ n := by
  rw [applyWrites_append, readWord_applyWrites_cons h]

theorem applyWrites_copyWrites (m : Mem) (a : Nat) (bs : List UInt8) :
    applyWrites m (copyWrites a bs) = writeBytes m a bs := by
  induction bs generalizing m a with
  | nil => rfl
  | cons b bs ih => rw [copyWrites, applyWrites_cons, ih]; rfl

theorem readBytes_applyWrites_copyWrites {m : Mem} {ws vs : List Write}
    (h : ∀ w ∈ vs, w.Avoids a (a + bs.length)) :
    readBytes (applyWrites m (ws ++ copyWrites a bs ++ vs)) a bs.length = bs := by
  rw [applyWrites_append, applyWrites_append, readBytes_congr (agreeOn_applyWrites h),
    applyWrites_copyWrites, readBytes_writeBytes]

theorem copyWrites_range {w : Write} (h : w ∈ copyWrites a bs) :
    a ≤ w.addr ∧ w.stop ≤ a + bs.length := by
  induction bs generalizing a with
  | nil => simp [copyWrites] at h
  | cons b bs ih =>
    rw [copyWrites, mem_cons] at h
    rcases h with rfl | h
    · simp [Write.stop]
    · have := ih h
      simp
      omega

-- a word is read by the lemmas above; unfolding it makes unification compute numbers
attribute [irreducible] readWord

end CDbK8s.Lib.ByteMem
