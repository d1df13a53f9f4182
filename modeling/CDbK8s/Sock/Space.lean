import CDbK8s.Lib.Runs
import CDbK8s.Sock.Model

/-!
# What the space of a buffer can be relied on for

`rwbuf_mkspace` is to make room or to say that the limit of the buffer is in the way, `rwbuf_rdinc`
is to stay behind the write index, and `sock_recv` is to have `min_size` bytes to read into. But the
first asks the code for twice the size where less would do, the second is checked against the end of
the memory, and the third asks for a difference below zero.
-/

namespace CDbK8s.Sock

open Base Lib.Runs

variable {b : Rwbuf} {need : Nat}

/-! ## Making space -/

/-- The buffer does not grow over its maximum. -/
def Capped (b : Rwbuf) (need : Nat) : Prop := b.maxSize ≠ 0 → growSize b.shift need ≤ b.maxSize

/-- The memory that `rwbuf_mkspace` would ask `realloc` for can be had. -/
def ReallocGrants (b : Rwbuf) (need : Nat) : Prop :=
  Capped b need → growSize b.shift need < 2 ^ 62

/-- Space that is handed out is there, with the contents kept and the limit respected; and a
buffer that can grow refuses only what the limit has no room for. -/
structure KeepsPromise (b : Rwbuf) (need : Nat) : Prop where
  granted : ∀ reallocOk b', rwbufMkspace b need reallocOk = (true, b') →
    b'.widx + need ≤ b'.size ∧ b'.unread = b.unread ∧ (b'.maxSize ≠ 0 → b'.size ≤ b'.maxSize)
  refused : ∀ b', b.isGrow = true → ReallocGrants b need → rwbufMkspace b need true = (false, b') →
    b.maxSize ≠ 0 ∧ b.maxSize < alignUp (rwbufUsed b + need)

/-- The request fits the memory once the contents are moved to its start, or the buffer has a
fixed size, or the size it is to grow to has room for the request, or that size is over the
limit and the request is too. -/
def SizedRight (b : Rwbuf) (need : Nat) : Prop :=
  rwbufUsed b + need ≤ b.size ∨ b.isGrow = false ∨
    (Capped b need ∧ (growSize b.shift need < 2 ^ 62 → rwbufUsed b + need ≤ growSize b.shift need)) ∨
    (¬ Capped b need ∧ b.maxSize < alignUp (rwbufUsed b + need))

theorem rwbufSpace_shift_lt (h : b.widx ≤ b.size) :
    rwbufSpace b.shift < need ↔ ¬ rwbufUsed b + need ≤ b.size := by
  have hle := b.widx_shift_le
  have hwidx := b.widx_shift
  rw [rwbufSpace_eq (by rw [b.size_shift]; omega), b.size_shift]
  omega

theorem growSize_eq {b : Rwbuf} (hsize : b.size < 2 ^ 62) (hneed : b.widx + need < 2 ^ 63 + 2 ^ 62) :
    growSize b need = max (alignUp (2 * b.size)) (alignUp (b.widx + need)) := by
  unfold growSize alignUp
  dsimp only
  split <;> omega

theorem rwbufMkspace_fits (hw : b.widx ≤ b.size) (hfits : rwbufUsed b + need ≤ b.size)
    (reallocOk : Bool) :
    ∃ b', rwbufMkspace b need reallocOk = (true, b') ∧ b'.widx + need ≤ b'.size ∧
      b'.size = b.size ∧ b'.maxSize = b.maxSize := by
  have hmade := rwbufMkspace_made b need reallocOk
  have hroom := mt (rwbufSpace_shift_lt hw).1 (not_not.2 hfits)
  generalize rwbufMkspace b need reallocOk = r at hmade
  cases hmade with
  | fits hroom =>
    rw [rwbufSpace_eq hw] at hroom
    exact ⟨b, rfl, Nat.add_le_of_le_sub' hw hroom, rfl, rfl⟩
  | shifted =>
    refine ⟨b.shift, rfl, ?_, b.size_shift, b.maxSize_shift⟩
    rw [b.widx_shift, b.size_shift]
    exact hfits
  | grown hfull | fixed hfull | capped hfull | _ hfull => exact absurd hfull hroom

theorem rwbufSpace_le_shift (hw : b.widx ≤ b.size) : rwbufSpace b ≤ rwbufSpace b.shift := by
  have hle := b.widx_shift_le
  rw [rwbufSpace_eq hw, rwbufSpace_eq (by rw [b.size_shift]; omega), b.size_shift]
  omega

theorem rwbufMkspace_grows (hw : b.widx ≤ b.size) (hfull : rwbufSpace b.shift < need)
    (hgrow : b.isGrow = true) (hcap : Capped b need) (hlt : growSize b.shift need < 2 ^ 62) :
    rwbufMkspace b need true = (true, { b.shift with size := growSize b.shift need }) := by
  have hmade := rwbufMkspace_made b need true
  have hle := rwbufSpace_le_shift hw
  generalize rwbufMkspace b need true = r at hmade
  cases hmade with
  | fits hroom => omega
  | shifted hroom => omega
  | grown => rfl
  | fixed _ hfix => exact absurd (hfix.symm.trans hgrow) Bool.false_ne_true
  | capped _ hset hover => exact absurd (hcap hset) (not_le.2 hover)
  | failed _ _ hno => exact absurd (hno rfl) (not_le.2 hlt)

theorem rwbufMkspace_refuses (hw : b.widx ≤ b.size) (hfull : rwbufSpace b.shift < need)
    {reallocOk : Bool} (hno : ¬ (b.isGrow = true ∧ Capped b need ∧ growSize b.shift need < 2 ^ 62 ∧
      reallocOk = true)) : rwbufMkspace b need reallocOk = (false, b.shift) := by
  have hmade := rwbufMkspace_made b need reallocOk
  have hle := rwbufSpace_le_shift hw
  generalize rwbufMkspace b need reallocOk = r at hmade
  cases hmade with
  | fits hroom => omega
  | shifted hroom => omega
  | grown _ hgrow hcap hlt hok => exact absurd ⟨hgrow, hcap, hlt, hok⟩ hno
  | _ => rfl

theorem keepsPromise_iff (hw : b.widx ≤ b.size) (hmax : b.maxSize ≠ 0 → b.size ≤ b.maxSize) :
    KeepsPromise b need ↔ SizedRight b need := by
  by_cases hfits : rwbufUsed b + need ≤ b.size
  · refine iff_of_true ⟨fun reallocOk b' hmk => ?_, fun b' _ _ hmk => ?_⟩ (.inl hfits)
    · obtain ⟨b1, hmk1, hroom, hsize, hlimit⟩ := rwbufMkspace_fits hw hfits _
      have hkeep := unread_mkspace b need reallocOk
      obtain rfl : b1 = b' := (Prod.mk.inj (hmk1.symm.trans hmk)).2
      rw [hmk] at hkeep
      exact ⟨hroom, hkeep, by rw [hsize, hlimit]; exact hmax⟩
    · obtain ⟨b1, hmk1, -⟩ := rwbufMkspace_fits hw hfits true
      exact absurd (Prod.mk.inj (hmk1.symm.trans hmk)).1 (by decide)
  have hfull := (rwbufSpace_shift_lt hw).2 hfits
  by_cases hno : b.isGrow = true ∧ Capped b need ∧ growSize b.shift need < 2 ^ 62
  · -- the buffer grows where `realloc` succeeds
    obtain ⟨hgrow, hcap, hlt⟩ := hno
    have hmk := rwbufMkspace_grows hw hfull hgrow hcap hlt
    constructor
    · intro h
      have hroom : b.shift.widx + need ≤ growSize b.shift need := (h.granted true _ hmk).1
      rw [b.widx_shift] at hroom
      exact .inr (.inr (.inl ⟨hcap, fun _ => hroom⟩))
    · rintro (h | h | ⟨-, hroom⟩ | ⟨h, -⟩)
      · exact absurd h hfits
      · exact absurd (h.symm.trans hgrow) Bool.false_ne_true
      · refine ⟨fun reallocOk b' hmk' => ?_, fun b' _ _ hmk' => ?_⟩
        · cases reallocOk with
          | false =>
            rw [rwbufMkspace_refuses hw hfull fun h => Bool.false_ne_true h.2.2.2] at hmk'
            exact absurd (Prod.mk.inj hmk').1 Bool.false_ne_true
          | true =>
            obtain rfl := (Prod.mk.inj (hmk.symm.trans hmk')).2
            refine ⟨?_, b.unread_shift, ?_⟩
            · show b.shift.widx + need ≤ growSize b.shift need
              rw [b.widx_shift]
              exact hroom hlt
            · rw [b.maxSize_shift]
              exact hcap
        · exact absurd (Prod.mk.inj (hmk.symm.trans hmk')).1 (by decide)
      · exact absurd hcap h
  · have hmk : ∀ reallocOk, rwbufMkspace b need reallocOk = (false, b.shift) := fun _ =>
      rwbufMkspace_refuses hw hfull fun h => hno ⟨h.1, h.2.1, h.2.2.1⟩
    constructor
    · intro h
      by_cases hgrow : b.isGrow = true
      · by_cases hcap : Capped b need
        · exact .inr (.inr (.inl ⟨hcap, fun hlt => absurd ⟨hgrow, hcap, hlt⟩ hno⟩))
        · exact .inr (.inr (.inr ⟨hcap, (h.refused _ hgrow (fun h => absurd h hcap) (hmk true)).2⟩))
      · exact .inr (.inl (Bool.not_eq_true _ ▸ hgrow))
    · intro h
      refine ⟨fun ok b' hmk' => ?_, fun b' hgrow hgrants _ => ?_⟩
      · exact absurd (Prod.mk.inj ((hmk ok).symm.trans hmk')).1 Bool.false_ne_true
      · rcases h with h | h | ⟨hcap, -⟩ | ⟨hcap, hlt⟩
        · exact absurd h hfits
        · exact absurd (h.symm.trans hgrow) Bool.false_ne_true
        · exact absurd ⟨hgrow, hcap, hgrants hcap⟩ hno
        · exact ⟨fun hzero => hcap fun hset => absurd hzero hset, hlt⟩

theorem le_alignUp (n : Nat) : n ≤ alignUp n := by
  unfold alignUp
  omega

theorem sizedRight_iff (hsize : b.size < 2 ^ 62) (hw : b.widx ≤ b.size) (hneed : need < 2 ^ 63) :
    SizedRight b need ↔ rwbufUsed b + need ≤ b.size ∨ b.isGrow = false ∨ b.maxSize = 0 ∨
      alignUp (2 * b.size) ≤ b.maxSize ∨ b.maxSize < alignUp (rwbufUsed b + need) := by
  have hused : rwbufUsed b ≤ b.size := (Nat.sub_le ..).trans hw
  have hgrow := growSize_eq (by rw [b.size_shift]; exact hsize)
    (show b.shift.widx + need < 2 ^ 63 + 2 ^ 62 by rw [b.widx_shift]; omega)
  rw [b.size_shift, b.widx_shift] at hgrow
  have hle := le_alignUp (rwbufUsed b + need)
  unfold SizedRight Capped
  cases b.isGrow with
  | false => simp only [true_or]
  | true =>
    simp
    omega

/-- `rwbuf_mkspace` keeps its promise exactly where the size it would grow to is right. Where
no sum wraps, that is unless twice the size is over the limit and the request would fit. -/
theorem mkspace_promise_iff (b : Rwbuf) (need : Nat) (hw : b.widx ≤ b.size)
    (hmax : b.maxSize ≠ 0 → b.size ≤ b.maxSize) :
    (KeepsPromise b need ↔ SizedRight b need) ∧ (b.size < 2 ^ 62 → need < 2 ^ 63 →
        (KeepsPromise b need ↔ rwbufUsed b + need ≤ b.size ∨ b.isGrow = false ∨ b.maxSize = 0 ∨
          alignUp (2 * b.size) ≤ b.maxSize ∨ b.maxSize < alignUp (rwbufUsed b + need))) := by
  have hiff : KeepsPromise b need ↔ SizedRight b need := keepsPromise_iff hw hmax
  exact ⟨hiff, fun hsize hneed => hiff.trans (sizedRight_iff hsize hw hneed)⟩

/-- A buffer of `size` bytes that can grow to `maxSize`. -/
def emptyBuf (size maxSize : Nat) : Rwbuf := ⟨[], maxSize, size, 0, true⟩

/-- A kilobyte that may double keeps its promise. -/
theorem mkspace_promise_doubled : KeepsPromise (emptyBuf 1024 2048) 1500 :=
  ((mkspace_promise_iff _ 1500 (by decide) (by decide)).2 (by decide) (by decide)).2 (by decide)

/-- Of 256 bytes with a limit of 400, 300 are refused, although 384 are within the limit; and
a request that wraps the sum is granted without the space. -/
theorem mkspace_breaks_promise :
    ¬ KeepsPromise (emptyBuf 256 400) 300 ∧ ¬ KeepsPromise ⟨[1], 0, 1, 0, true⟩ (2 ^ 64 - 1) := by
  have hwrap : rwbufMkspace ⟨[1], 0, 1, 0, true⟩ (2 ^ 64 - 1) true =
      (true, ⟨[1], 0, 128, 0, true⟩) := by
    rw [rwbufMkspace_grows (by decide) (by decide) rfl (fun h => absurd rfl h) (by decide +kernel)]
    simp [growSize, Rwbuf.shift, alignUp, Rwbuf.widx]
  refine ⟨fun h => ?_, fun h => ?_⟩
  · exact absurd (h.refused _ rfl (fun _ => by decide) rfl).2 (by decide)
  · exact absurd (h.granted true _ hwrap).1 (by decide)

/-! ## Space to read into -/

/-- The bytes that `sock_recv` asks `read` for, where it has space. -/
def recvAsk (s : SimpleSock) (reallocOk : Bool) : Option Nat :=
  let p := recvSpace s reallocOk
  if p.1 then some (rwbufSpace p.2.recvBuf) else none

/-- `sock_recv` reads at least `min_size` bytes, for which the buffer has space, where the limit
leaves that many, and has no space only where it does not. -/
def ReadsMin (s : SimpleSock) : Prop :=
  (rwbufUsed s.recvBuf + s.minSize ≤ s.recvBuf.maxSize →
    ∃ len, recvAsk s true = some len ∧ s.minSize ≤ len ∧
      (recvSpace s true).2.recvBuf.widx + s.minSize ≤ (recvSpace s true).2.recvBuf.size) ∧
  (recvAsk s true = none → s.recvBuf.maxSize < rwbufUsed s.recvBuf + s.minSize)

section
variable {s : SimpleSock}

/-- The space that `sock_recv` asks `rwbuf_mkspace` for. -/
theorem recvSpace_short (hmin : 0 < s.minSize) (h : rwbufSpace s.recvBuf < s.minSize) :
    recvSpace s true =
      let r := rwbufMkspace s.recvBuf (sizeSub (rwbufSpace s.recvBuf) s.minSize) true
      (r.1, { s with recvBuf := r.2 }) :=
  if_pos ⟨hmin.ne', h⟩

theorem readsMin_iff (h : rwbufUsed s.recvBuf + s.minSize ≤ s.recvBuf.maxSize) :
    ReadsMin s ↔ (recvSpace s true).1 = true ∧
      (recvSpace s true).2.recvBuf.widx + s.minSize ≤ (recvSpace s true).2.recvBuf.size := by
  constructor
  · intro hs
    obtain ⟨len, hask, -, hspace⟩ := hs.1 h
    refine ⟨by_contra fun hno => ?_, hspace⟩
    rw [recvAsk, if_neg hno] at hask
    cases hask
  · rintro ⟨hok, hspace⟩
    have hask : recvAsk s true = some (rwbufSpace (recvSpace s true).2.recvBuf) := if_pos hok
    refine ⟨fun _ => ⟨_, hask, ?_, hspace⟩, fun hnone => absurd (hask.symm.trans hnone) (by simp)⟩
    rw [rwbufSpace_eq (by omega)]
    omega

end

theorem growSize_below_zero {min : Nat} (hr : b.ridx ≤ b.widx) (hw : b.widx ≤ b.size)
    (hsize : b.size < 2 ^ 63) (hmin : rwbufSpace b < min) (hlt : min < 2 ^ 64) :
    (b.ridx + min ≤ b.size →
      growSize b.shift (sizeSub (rwbufSpace b) min) = alignUp (2 * b.size) % 2 ^ 64) ∧
    (b.size < b.ridx + min → growSize b.shift (sizeSub (rwbufSpace b) min) = 0 ∨
      2 ^ 64 ≤ growSize b.shift (sizeSub (rwbufSpace b) min) + min) := by
  unfold growSize
  rw [b.size_shift, b.widx_shift]
  unfold alignUp sizeSub rwbufUsed
  rw [rwbufSpace_eq hw] at hmin ⊢
  constructor <;> intro h <;> dsimp only <;> split <;> omega

/-- The space that the difference gives, where the limit leaves `min` bytes. -/
theorem mkspace_below_zero {min : Nat} (hr : b.ridx ≤ b.widx) (hw : b.widx ≤ b.size)
    (hsize : b.size < 2 ^ 63) (hlim : b.maxSize < 2 ^ 64) (hmin : 0 < min) (hlt : min < 2 ^ 64)
    (hshort : rwbufSpace b < min) (hgrants : ReallocGrants b (sizeSub (rwbufSpace b) min))
    (hroom : rwbufUsed b + min ≤ b.maxSize) :
    (∃ b', rwbufMkspace b (sizeSub (rwbufSpace b) min) true = (true, b') ∧ b'.widx + min ≤ b'.size) ↔
      b.isGrow = true ∧ b.ridx + min ≤ b.size ∧ alignUp (2 * b.size) ≤ b.maxSize := by
  obtain ⟨hdouble, hwrap⟩ := growSize_below_zero hr hw hsize hshort hlt
  have hneed : sizeSub (rwbufSpace b) min + min = rwbufSpace b + 2 ^ 64 := by
    unfold sizeSub
    omega
  have hused : rwbufUsed b = b.widx - b.ridx := rfl
  have halign : 2 * b.size ≤ alignUp (2 * b.size) ∧ alignUp (2 * b.size) ≤ 2 ^ 64 := by
    unfold alignUp
    omega
  have hmade := rwbufMkspace_made b (sizeSub (rwbufSpace b) min) true
  generalize rwbufMkspace b _ true = r at hmade ⊢
  generalize sizeSub _ min = need at *
  cases hmade with
  | fits hfits => omega
  | shifted hfits =>
    -- only for a `min` beyond all objects
    have hwidx := b.widx_shift
    have hshift := rwbufSpace_eq (show b.shift.widx ≤ b.shift.size by rw [b.size_shift]; omega)
    simp only [Prod.mk.injEq, true_and, exists_eq_left', b.size_shift, hwidx] at hshift ⊢
    omega
  | grown hfull hgrow hcap _ =>
    simp only [Prod.mk.injEq, true_and, exists_eq_left', hgrow]
    show b.shift.widx + min ≤ growSize b.shift need ↔ _
    rw [b.widx_shift]
    rcases Nat.lt_or_ge b.size (b.ridx + min) with - | hnear
    · omega
    · omega
  | fixed hfull hfix => simp [hfix]
  | capped hfull _ _ =>
    simp
    omega
  | failed hfull hcap hno => exact absurd (hno rfl) (not_le.2 (hgrants hcap))

/-- `sock_recv` reads `min_size` bytes where the limit leaves them exactly if they are free
already, or the buffer may double and they would be free with nothing written yet. -/
theorem recv_min_space_iff (s : SimpleSock) (hr : s.recvBuf.ridx ≤ s.recvBuf.widx)
    (hw : s.recvBuf.widx ≤ s.recvBuf.size) (hsize : s.recvBuf.size < 2 ^ 63)
    (hlim : s.recvBuf.maxSize < 2 ^ 64) (hmin : 0 < s.minSize) (hlt : s.minSize < 2 ^ 64)
    (hgrants : ReallocGrants s.recvBuf (sizeSub (rwbufSpace s.recvBuf) s.minSize)) :
    ReadsMin s ↔ (rwbufUsed s.recvBuf + s.minSize ≤ s.recvBuf.maxSize →
        s.minSize ≤ rwbufSpace s.recvBuf ∨
          (s.recvBuf.isGrow = true ∧ s.recvBuf.ridx + s.minSize ≤ s.recvBuf.size ∧
            alignUp (2 * s.recvBuf.size) ≤ s.recvBuf.maxSize)) := by
  by_cases hroom : rwbufUsed s.recvBuf + s.minSize ≤ s.recvBuf.maxSize
  · rw [readsMin_iff hroom, forall_prop_of_true hroom]
    by_cases henough : s.minSize ≤ rwbufSpace s.recvBuf
    · have hspace : recvSpace s true = (true, s) := if_neg fun hless => not_lt.2 henough hless.2
      rw [rwbufSpace_eq hw] at henough
      rw [hspace, rwbufSpace_eq hw]
      have hfree : s.recvBuf.widx + s.minSize ≤ s.recvBuf.size := by omega
      exact iff_of_true ⟨rfl, hfree⟩ (.inl henough)
    · rw [or_iff_right henough, ← mkspace_below_zero hr hw hsize hlim hmin hlt
        (not_le.1 henough) hgrants hroom, recvSpace_short hmin (not_le.1 henough)]
      cases rwbufMkspace s.recvBuf _ true with
      | mk ok _ => cases ok <;> simp
  · exact iff_of_true ⟨fun h => absurd h hroom, fun _ => not_le.1 hroom⟩ fun h => absurd h hroom

/-- The socket of a receive buffer that reads at least `minSize` bytes. -/
def recvSock (recvBuf : Rwbuf) (minSize : Nat) : SimpleSock :=
  { sockStatic 256 minSize 0 0 with recvBuf }

/-- Four bytes that may grow, three of them written and two of those read. -/
theorem recv_min_space_doubled : ReadsMin (recvSock ⟨[1, 2, 3], 200, 4, 2, true⟩ 2) :=
  (recv_min_space_iff _ (by decide) (by decide) (by decide)
    (by decide) (by decide) (by decide) fun _ => by decide +kernel).2
    fun _ => .inr ⟨rfl, by decide, by decide⟩

/-- In four bytes that are all there is, the two asked for would fit once the two read are
gone, and there is no space. -/
theorem recv_refuses_what_fits : ¬ ReadsMin (recvSock ⟨[1, 2, 3], 4, 4, 2, false⟩ 2) := by
  intro h
  have hnone : recvAsk (recvSock ⟨[1, 2, 3], 4, 4, 2, false⟩ 2) true = none := by decide +kernel
  exact absurd (h.2 hnone) (by decide)

/-! ## Reading on -/

/-- A call that writes to the buffer or reads on in it. -/
inductive BufCall where
  | write (mem : Slice) (reallocOk : Bool)
  | rdinc (len : Nat)

/-- The buffer after a call. -/
def Rwbuf.next (b : Rwbuf) : BufCall → Rwbuf
  | .write mem reallocOk => (rwbufWrite b mem.bytes reallocOk).2
  | .rdinc len => (rwbufRdinc b len).2

/-- The indices stay in order; and reading on fails without effect where there are not as many
bytes, and takes exactly as many from the front where it succeeds. -/
structure Rwbuf.Consumes (b : Rwbuf) (c : BufCall) : Prop where
  ridx_le : (b.next c).ridx ≤ (b.next c).widx
  widx_le : (b.next c).widx ≤ (b.next c).size
  refuses : ∀ len, c = .rdinc len → rwbufUsed b < len → rwbufRdinc b len = (-1, b)
  takes : ∀ len, c = .rdinc len → (rwbufRdinc b len).1 = 0 →
    (rwbufRdinc b len).2.unread = b.unread.drop len

/-- Reading on keeps to the contents, or comes behind the end of the memory. -/
def Rwbuf.Within (b : Rwbuf) : BufCall → Prop
  | .write _ _ => True
  | .rdinc len => len ≤ rwbufUsed b ∨ b.size < (b.ridx + len) % 2 ^ 64

theorem rwbufRdinc_behind {len : Nat} (h : b.size < (b.ridx + len) % 2 ^ 64) :
    rwbufRdinc b len = (-1, b) := if_pos h

theorem Rwbuf.Wf.next_within (h : b.Wf) {c : BufCall} (hc : b.Within c) : (b.next c).Wf := by
  cases c with
  | write mem reallocOk =>
    exact (rwbufWrite_spec h (lt_trans mem.size_lt (by decide)) _).1
  | rdinc len =>
    show (rwbufRdinc b len).2.Wf
    by_cases hlen : len ≤ rwbufUsed b
    · rw [rwbufRdinc_eq h hlen]
      exact h.skip hlen
    · rw [rwbufRdinc_behind (hc.resolve_left hlen)]
      exact h

theorem Rwbuf.Wf.consumes_iff (h : b.Wf) (c : BufCall) : b.Consumes c ↔ b.Within c := by
  constructor
  · intro hc
    cases c with
    | write _ _ => trivial
    | rdinc len =>
      by_contra hout
      obtain ⟨hlen, hsize⟩ := not_or.1 hout
      have hrun := hc.refuses len rfl (not_le.1 hlen)
      unfold rwbufRdinc at hrun
      rw [if_neg hsize] at hrun
      split at hrun <;> exact absurd (Prod.mk.inj hrun).1 (by decide)
  · intro hc
    have hwf := h.next_within hc
    refine ⟨hwf.ridx_le, hwf.widx_le, ?_, ?_⟩
    · rintro len rfl hless
      exact rwbufRdinc_behind (hc.resolve_left (not_le.2 hless))
    · rintro len rfl hok
      by_cases hlen : len ≤ rwbufUsed b
      · rw [rwbufRdinc_eq h hlen]
        exact b.unread_skip len
      · rw [rwbufRdinc_behind (hc.resolve_left hlen)] at hok
        exact absurd hok (show ¬ (-1 : Int) = 0 by decide)

/-- Over every run of writes and reads the buffer is consumed as it should be exactly if no
read goes past the contents and stays within the memory. -/
theorem consumes_iff_within (b : Rwbuf) (h : b.Wf) (calls : List BufCall) :
    EveryStep Rwbuf.next Rwbuf.Consumes b calls ↔ EveryStep Rwbuf.next Rwbuf.Within b calls :=
  everyStep_iff (fun _ _ hb _ hc => hb.next_within hc)
    (fun _ c hb _ => hb.consumes_iff c) _ b h (everyStep_of_forall (fun _ _ _ => trivial) b)

/-- A write of two bytes, and a read of one. -/
theorem consumes_one_of_two : EveryStep Rwbuf.next Rwbuf.Consumes (rwbufStatic 4)
      [.write ⟨[97, 98], by decide⟩ true, .rdinc 1] :=
  (consumes_iff_within _ ⟨by decide, by decide, by decide⟩ _).2 ⟨trivial, .inl (by decide), trivial⟩

/-- Of one byte in a buffer of four, three are read, and the read index is past the write
index. -/
theorem consumes_past_the_data : ¬ EveryStep Rwbuf.next Rwbuf.Consumes (rwbufStatic 4)
      [.write ⟨[97], by decide⟩ true, .rdinc 3] :=
  fun h => absurd h.2.1.ridx_le (by decide)

end CDbK8s.Sock
