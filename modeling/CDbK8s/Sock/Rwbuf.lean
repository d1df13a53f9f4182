import CDbK8s.Base.Bytes

/-!
# The memory buffer of `rwbuf.c`

A buffer holds the bytes written so far, from the start of its memory up to the write index, and
reads them from the read index on. What lies behind the write index is never read, so `data` has the
bytes below it only. `realloc` is an argument of the calls that may grow a buffer: whether it
succeeds, for a size that an object can have.
-/

namespace CDbK8s.Sock

open Base List

/-- `struct rwbuf`. -/
structure Rwbuf where
  data : Bytes
  maxSize : Nat
  size : Nat
  ridx : Nat
  isGrow : Bool

/-- `buf->widx`. -/
def Rwbuf.widx (b : Rwbuf) : Nat := b.data.length

/-- The readable bytes: `rwbuf_used(buf)` bytes from `rwbuf_rptr(buf)` on. -/
def Rwbuf.unread (b : Rwbuf) : Bytes := b.data.drop b.ridx

def rwbufUsed (b : Rwbuf) : Nat := b.widx - b.ridx

/-- `rwbuf_space(buf)`, a difference of `size_t`. -/
def rwbufSpace (b : Rwbuf) : Nat :=
  if b.widx ≤ b.size then b.size - b.widx else 2 ^ 64 + b.size - b.widx

theorem rwbufSpace_eq {b : Rwbuf} (h : b.widx ≤ b.size) : rwbufSpace b = b.size - b.widx := if_pos h

/-- A line without the CR at its end. -/
def stripCr (line : Bytes) : Bytes := if line.getLast? = some 13 then line.dropLast else line

/-- The indices are in order. -/
structure Rwbuf.Wf (b : Rwbuf) : Prop where
  ridx_le : b.ridx ≤ b.widx
  widx_le : b.widx ≤ b.size
  size_lt : b.size < 2 ^ 62

/-- `RWBUF_INIT`: a static buffer of `len` bytes. -/
def rwbufStatic (len : Nat) : Rwbuf :=
  { data := [], maxSize := len, size := len, ridx := 0, isGrow := false }

/-! ## Reading -/

/-- The read index moves on; a buffer that is read to the end starts anew. -/
def Rwbuf.skip (b : Rwbuf) (len : Nat) : Rwbuf :=
  if b.ridx + len = b.widx then { b with data := [], ridx := 0 }
  else { b with ridx := b.ridx + len }

/-- `rwbuf_rdinc`. The sum is one of `size_t`. -/
def rwbufRdinc (b : Rwbuf) (len : Nat) : Int × Rwbuf :=
  let ridx := (b.ridx + len) % 2 ^ 64
  if ridx > b.size then (-1, b)
  else if ridx = b.widx then (0, { b with data := [], ridx := 0 })
  else (0, { b with ridx })

/-- The unread bytes are moved to the front. -/
def Rwbuf.shift (b : Rwbuf) : Rwbuf :=
  if b.ridx > 0 then { b with data := b.unread, ridx := 0 } else b

/-- The bytes of a line without the terminator: a final LF goes, and then a CR before
it. -/
def trimEol (line : Bytes) : Bytes :=
  let line := if line.getLast? = some 10 then line.dropLast else line
  if line.getLast? = some 13 then line.dropLast else line

/-- `rwbuf_readline` with or without `RWBUF_EOF`: the return value, the line and the
buffer. -/
def rwbufReadline (b : Rwbuf) (max : Nat) (eof : Bool) : Int × Bytes × Rwbuf :=
  let rlen := rwbufUsed b
  if b.unread.idxOf 10 < b.unread.length then
    let llen := b.unread.idxOf 10 + 1
    let line := trimEol (b.unread.take llen)
    if max ≠ 0 ∧ line.length > max then (-1, line, b.skip llen)
    else (llen, line, b.skip llen)
  else if max ≠ 0 ∧ rlen > max then (-1, [], b)
  else if eof then (rlen, b.unread, { b with data := [], ridx := 0 })
  else (0, [], b.shift)

/-! ## Writing -/

/-- `ALIGN_UP(n, 128)`. -/
def alignUp (n : Nat) : Nat := (n + 127) / 128 * 128

/-- The size that `rwbuf_mkspace` grows to, in `size_t` arithmetic. -/
def growSize (b : Rwbuf) (need : Nat) : Nat :=
  let size := b.size * 2 % 2 ^ 64
  let want := (b.widx + need) % 2 ^ 64
  alignUp (if size < want then want else size) % 2 ^ 64

/-- `rwbuf_mkspace`: whether there is space, and the buffer. -/
def rwbufMkspace (b : Rwbuf) (need : Nat) (reallocOk : Bool) : Bool × Rwbuf :=
  if rwbufSpace b ≥ need then (true, b)
  else
    let b := b.shift
    if rwbufSpace b < need then
      if !b.isGrow then (false, b)
      else
        let size := growSize b need
        if b.maxSize ≠ 0 ∧ size > b.maxSize then (false, b)
        else if reallocOk ∧ size < 2 ^ 62 then (true, { b with size })
        else (false, b)
    else (true, b)

/-- `rwbuf_write`: all of the bytes, or none. -/
def rwbufWrite (b : Rwbuf) (mem : Bytes) (reallocOk : Bool) : Int × Rwbuf :=
  match rwbufMkspace b mem.length reallocOk with
  | (false, b) => (-1, b)
  | (true, b) => (0, { b with data := b.data ++ mem })

def rwbufWritev (b : Rwbuf) (iovs : List Bytes) (reallocOk : Bool) : Int × Rwbuf :=
  rwbufWrite b iovs.flatten reallocOk

/-- `rwbuf_init`: a dynamic buffer. -/
def rwbufInit (initSize maxSize : Nat) (reallocOk : Bool) : Int × Rwbuf :=
  let b : Rwbuf := { data := [], maxSize, size := 0, ridx := 0, isGrow := true }
  if initSize ≠ 0 then
    match rwbufMkspace b initSize reallocOk with
    | (false, b) => (-1, b)
    | (true, b) => (0, b)
  else (0, b)

/-! ## Contents -/

variable {b : Rwbuf}

theorem length_unread (b : Rwbuf) : b.unread.length = rwbufUsed b := length_drop

theorem Rwbuf.unread_shift (b : Rwbuf) : b.shift.unread = b.unread := by
  unfold Rwbuf.shift
  split <;> rfl

theorem Rwbuf.ridx_shift (b : Rwbuf) : b.shift.ridx = 0 := by
  unfold Rwbuf.shift
  split
  · rfl
  · omega

theorem Rwbuf.widx_shift (b : Rwbuf) : b.shift.widx = rwbufUsed b := by
  unfold Rwbuf.shift rwbufUsed
  split
  · exact length_drop
  · have hzero : b.ridx = 0 := by omega
    simp [hzero]

theorem Rwbuf.size_shift (b : Rwbuf) : b.shift.size = b.size := by
  unfold Rwbuf.shift
  split <;> rfl

theorem Rwbuf.maxSize_shift (b : Rwbuf) : b.shift.maxSize = b.maxSize := by
  unfold Rwbuf.shift
  split <;> rfl

theorem Rwbuf.isGrow_shift (b : Rwbuf) : b.shift.isGrow = b.isGrow := by
  unfold Rwbuf.shift
  split <;> rfl

theorem ridx_shift_le (b : Rwbuf) : b.shift.ridx ≤ b.shift.widx := by
  rw [b.ridx_shift]
  exact zero_le

theorem Rwbuf.widx_shift_le (b : Rwbuf) : b.shift.widx ≤ b.widx :=
  b.widx_shift.trans_le (Nat.sub_le ..)

theorem Rwbuf.Wf.shift (h : b.Wf) : b.shift.Wf := by
  have hsize := b.size_shift
  exact ⟨ridx_shift_le b, hsize ▸ b.widx_shift_le.trans h.widx_le, hsize ▸ h.size_lt⟩

theorem Rwbuf.unread_skip (b : Rwbuf) (len : Nat) : (b.skip len).unread = b.unread.drop len := by
  unfold Rwbuf.skip
  split
  · rename_i hend
    rw [Rwbuf.unread, Rwbuf.unread, drop_drop, hend, Rwbuf.widx, drop_length]
    rfl
  · simp [Rwbuf.unread]

theorem Rwbuf.Wf.skip (h : b.Wf) {len : Nat} (hlen : len ≤ rwbufUsed b) : (b.skip len).Wf := by
  have hle := h.ridx_le
  unfold rwbufUsed at hlen
  unfold Rwbuf.skip
  split
  · exact ⟨zero_le, zero_le, h.size_lt⟩
  · exact ⟨show b.ridx + len ≤ b.widx by omega, h.widx_le, h.size_lt⟩

theorem ridx_skip_le {len : Nat} (hlen : b.ridx + len ≤ b.widx) :
    (b.skip len).ridx ≤ (b.skip len).widx := by
  unfold Rwbuf.skip
  split
  · exact zero_le
  · exact hlen

theorem idxOf_line {l : Bytes} (hl : 10 ∉ l) (r : Bytes) : (l ++ 10 :: r).idxOf 10 = l.length := by
  simp [idxOf_append_of_notMem hl]

theorem readline_found {l r : Bytes} (h : b.unread = l ++ 10 :: r) (hl : 10 ∉ l) (max : Nat)
    (eof : Bool) :
    rwbufReadline b max eof =
      (if max ≠ 0 ∧ (trimEol (l ++ [10])).length > max then -1 else ((l.length + 1 : Nat) : Int),
        trimEol (l ++ [10]), b.skip (l.length + 1)) := by
  have htake : (l ++ 10 :: r).take (l.length + 1) = l ++ [10] := by
    rw [take_length_add_append]
    rfl
  unfold rwbufReadline
  dsimp only
  rw [h, idxOf_line hl, htake, if_pos (by simp)]
  split <;> rfl

theorem readline_unfinished (h : 10 ∉ b.unread) (max : Nat) (eof : Bool) : rwbufReadline b max eof =
      if max ≠ 0 ∧ rwbufUsed b > max then (-1, [], b)
      else if eof then ((rwbufUsed b : Int), b.unread, { b with data := [], ridx := 0 })
      else (0, [], b.shift) := by
  unfold rwbufReadline
  rw [if_neg (by rw [idxOf_lt_length_iff]; exact h)]

theorem rwbufRdinc_eq (h : b.Wf) {len : Nat} (hlen : len ≤ rwbufUsed b) :
    rwbufRdinc b len = (0, b.skip len) := by
  have hle := h.ridx_le
  have hsize := h.widx_le
  have hlt := h.size_lt
  unfold rwbufUsed at hlen
  rw [rwbufRdinc, Nat.mod_eq_of_lt (by omega), Rwbuf.skip, if_neg (by omega)]
  split <;> rfl

theorem le_growSize (h : b.Wf) {need : Nat} (hneed : b.widx + need + 127 < 2 ^ 64) :
    b.widx + need ≤ growSize b need ∧ b.size ≤ growSize b need := by
  have hlt := h.size_lt
  unfold growSize alignUp
  dsimp only
  split <;> omega

/-- What a call of `rwbuf_mkspace` can come to. -/
inductive Made (b : Rwbuf) (need : Nat) (reallocOk : Bool) : Bool × Rwbuf → Prop where
  | fits (hroom : need ≤ rwbufSpace b) : Made b need reallocOk (true, b)
  | shifted (hroom : need ≤ rwbufSpace b.shift) : Made b need reallocOk (true, b.shift)
  | grown (hfull : rwbufSpace b.shift < need) (hgrow : b.isGrow = true)
      (hcap : b.maxSize ≠ 0 → growSize b.shift need ≤ b.maxSize)
      (hlt : growSize b.shift need < 2 ^ 62) (hok : reallocOk = true) :
      Made b need reallocOk (true, { b.shift with size := growSize b.shift need })
  | fixed (hfull : rwbufSpace b.shift < need) (hfix : b.isGrow = false) :
      Made b need reallocOk (false, b.shift)
  | capped (hfull : rwbufSpace b.shift < need) (hset : b.maxSize ≠ 0)
      (hcap : b.maxSize < growSize b.shift need) : Made b need reallocOk (false, b.shift)
  | failed (hfull : rwbufSpace b.shift < need)
      (hcap : b.maxSize ≠ 0 → growSize b.shift need ≤ b.maxSize)
      (hno : reallocOk = true → 2 ^ 62 ≤ growSize b.shift need) :
      Made b need reallocOk (false, b.shift)

theorem rwbufMkspace_made (b : Rwbuf) (need : Nat) (reallocOk : Bool) :
    Made b need reallocOk (rwbufMkspace b need reallocOk) := by
  have hgrow := b.isGrow_shift
  have hmax := b.maxSize_shift
  unfold rwbufMkspace
  dsimp only
  split_ifs with hroom hfull hfix hcap hok
  · exact .fits hroom
  · exact .fixed hfull (by simpa [hgrow] using hfix)
  · rw [hmax] at hcap
    exact .capped hfull hcap.1 hcap.2
  · rw [hmax, not_and, not_lt] at hcap
    exact .grown hfull (by simpa [hgrow] using hfix) hcap hok.2 hok.1
  · rw [hmax, not_and, not_lt] at hcap
    rw [not_and, not_lt] at hok
    exact .failed hfull hcap hok
  · exact .shifted (not_lt.1 hfull)

theorem unread_mkspace (b : Rwbuf) (need : Nat) (reallocOk : Bool) :
    (rwbufMkspace b need reallocOk).2.unread = b.unread := by
  have hshift := b.unread_shift
  have hmade := rwbufMkspace_made b need reallocOk
  generalize rwbufMkspace b need reallocOk = r at hmade ⊢
  cases hmade <;> first | rfl | exact hshift

theorem ridx_mkspace_le (h : b.ridx ≤ b.widx) (need : Nat) (reallocOk : Bool) :
    (rwbufMkspace b need reallocOk).2.ridx ≤ (rwbufMkspace b need reallocOk).2.widx := by
  have hshift := ridx_shift_le b
  have hmade := rwbufMkspace_made b need reallocOk
  generalize rwbufMkspace b need reallocOk = r at hmade ⊢
  cases hmade <;> first | exact h | exact hshift

theorem Rwbuf.Wf.mkspace (h : b.Wf) {need : Nat} (hneed : b.widx + need + 127 < 2 ^ 64)
    (reallocOk : Bool) :
    (rwbufMkspace b need reallocOk).2.Wf ∧ ((rwbufMkspace b need reallocOk).1 = true →
        (rwbufMkspace b need reallocOk).2.widx + need ≤ (rwbufMkspace b need reallocOk).2.size) := by
  have hs := h.shift
  have hshift := b.widx_shift_le
  have hgrow := le_growSize hs (show b.shift.widx + need + 127 < 2 ^ 64 by omega)
  have hle := h.widx_le
  have hsle := hs.widx_le
  have hmade := rwbufMkspace_made b need reallocOk
  generalize rwbufMkspace b need reallocOk = r at hmade ⊢
  cases hmade with
  | fits hroom => exact ⟨h, fun _ => Nat.add_le_of_le_sub' hle (rwbufSpace_eq hle ▸ hroom)⟩
  | shifted hroom => exact ⟨hs, fun _ => Nat.add_le_of_le_sub' hsle (rwbufSpace_eq hsle ▸ hroom)⟩
  | grown _ _ _ hlt => exact ⟨⟨hs.ridx_le, hsle.trans hgrow.2, hlt⟩, fun _ => hgrow.1⟩
  | _ => exact ⟨hs, fun hfalse => absurd hfalse Bool.false_ne_true⟩

/-- A write either appends and returns `0`, or returns `-1` and keeps the contents. -/
theorem rwbufWrite_fits (h : b.Wf) {mem : Bytes} (hmem : b.widx + mem.length + 127 < 2 ^ 64)
    (reallocOk : Bool) :
    (rwbufWrite b mem reallocOk).2.Wf ∧ (((rwbufWrite b mem reallocOk).1 = 0 ∧
          (rwbufWrite b mem reallocOk).2.unread = b.unread ++ mem) ∨
        ((rwbufWrite b mem reallocOk).1 = -1 ∧
          (rwbufWrite b mem reallocOk).2.unread = b.unread)) := by
  have hkeep := unread_mkspace b mem.length reallocOk
  obtain ⟨hwf, hspace⟩ := h.mkspace hmem reallocOk
  unfold rwbufWrite
  cases hmk : rwbufMkspace b mem.length reallocOk with
  | mk ok b' =>
    rw [hmk] at hkeep hwf hspace
    cases ok with
    | false => exact ⟨hwf, .inr ⟨rfl, hkeep⟩⟩
    | true =>
      have hroom := hspace rfl
      have hle : b'.ridx ≤ b'.widx := hwf.ridx_le
      have hwidx : Rwbuf.widx { b' with data := b'.data ++ mem } = b'.widx + mem.length :=
        length_append
      refine ⟨⟨?_, ?_, hwf.size_lt⟩, .inl ⟨rfl, ?_⟩⟩
      · show b'.ridx ≤ Rwbuf.widx { b' with data := b'.data ++ mem }
        omega
      · rw [hwidx]
        exact hroom
      · rw [← hkeep]
        exact drop_append_of_le_length hle

theorem rwbufWrite_spec (h : b.Wf) {mem : Bytes} (hmem : mem.length < 2 ^ 63) (reallocOk : Bool) :
    (rwbufWrite b mem reallocOk).2.Wf ∧ (((rwbufWrite b mem reallocOk).1 = 0 ∧
          (rwbufWrite b mem reallocOk).2.unread = b.unread ++ mem) ∨
        ((rwbufWrite b mem reallocOk).1 = -1 ∧
          (rwbufWrite b mem reallocOk).2.unread = b.unread)) := by
  have hle := h.widx_le
  have hlt := h.size_lt
  exact rwbufWrite_fits h (by omega) _

end CDbK8s.Sock
