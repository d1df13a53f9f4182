import CDbK8s.Lib.Block
import CDbK8s.Sock.Rwbuf

/-!
# The memory behind an `rwbuf`

`Rwbuf` has the bytes below the write index only. A line is an offset and a length in the block, as
`line->ptr` and `line->len` are. While no growth wraps around, every call keeps `Models`, so what is
proved about the contents of an `Rwbuf` holds of the bytes in memory.
-/

namespace CDbK8s.Sock

open Base Lib.Block List

/-! ## The structure and its calls -/

/-- `struct rwbuf`, with the block that `data` points to. -/
structure RawBuf where
  mem : Bytes
  maxSize : Nat
  size : Nat
  ridx : Nat
  widx : Nat
  isGrow : Bool

/-- The bytes between the indices. -/
def RawBuf.unread (b : RawBuf) : Bytes := window b.mem b.ridx (b.widx - b.ridx)

/-- The bytes of a line, given by its offset and length. -/
def RawBuf.text (b : RawBuf) (line : Nat × Nat) : Bytes := window b.mem line.1 line.2

/-- The indices are in order, and the block has the size that is noted. -/
structure RawBuf.Wf (b : RawBuf) : Prop where
  ridx_le : b.ridx ≤ b.widx
  widx_le : b.widx ≤ b.size
  block : b.mem.length = b.size
  size_lt : b.size < 2 ^ 62

/-- The unread bytes are moved to the front. -/
def RawBuf.shift (b : RawBuf) : RawBuf :=
  let used := b.widx - b.ridx
  if b.ridx > 0 then { b with mem := moveDown b.mem b.ridx used, ridx := 0, widx := used } else b

/-- `realloc(buf->data, size)` and what `rwbuf_mkspace` makes of it. `alloc` is the answer
of the allocator, with what new memory happens to hold; no object has `2 ^ 62` bytes. A
size of zero frees the block, whatever the answer. -/
def RawBuf.realloc (b : RawBuf) (size : Nat) (alloc : Option (Nat → UInt8)) : Bool × RawBuf :=
  match alloc with
  | none => (false, if size = 0 then { b with mem := [] } else b)
  | some fresh =>
    if size < 2 ^ 62 then (true, { b with mem := resized b.mem size fresh, size })
    else (false, b)

/-- `rwbuf_mkspace`: whether there is space, and the buffer. -/
def rawMkspace (b : RawBuf) (need : Nat) (alloc : Option (Nat → UInt8)) : Bool × RawBuf :=
  if b.size - b.widx ≥ need then (true, b)
  else
    let b := b.shift
    if b.size - b.widx < need then
      if !b.isGrow then (false, b)
      else
        let size := b.size * 2 % 2 ^ 64
        let want := (b.widx + need) % 2 ^ 64
        let size := alignUp (if size < want then want else size) % 2 ^ 64
        if b.maxSize ≠ 0 ∧ size > b.maxSize then (false, b)
        else b.realloc size alloc
    else (true, b)

/-- `n` bytes are copied to `rwbuf_wptr(buf)` and added to `widx`. -/
def rawFill (b : RawBuf) (bytes : Bytes) : RawBuf :=
  { b with mem := blit b.mem b.widx bytes, widx := b.widx + bytes.length }

/-- `rwbuf_write`. -/
def rawWrite (b : RawBuf) (mem : Bytes) (alloc : Option (Nat → UInt8)) : Int × RawBuf :=
  match rawMkspace b mem.length alloc with
  | (false, b) => (-1, b)
  | (true, b) => (0, rawFill b mem)

/-- `rwbuf_writev`: the vectors are copied one behind the other. -/
def rawWritev (b : RawBuf) (iovs : List Bytes) (alloc : Option (Nat → UInt8)) : Int × RawBuf :=
  rawWrite b iovs.flatten alloc

/-- The flags of `rwbuf_readline`. -/
structure ReadFlags where
  eof : Bool
  nolog : Bool
  addnul : Bool

/-- The buffer after `llen` bytes were read. -/
def RawBuf.advance (b : RawBuf) (llen : Nat) : RawBuf :=
  if b.ridx + llen = b.widx then { b with ridx := 0, widx := 0 }
  else { b with ridx := b.ridx + llen }

/-- `str[len] = '\0'` under `RWBUF_ADDNUL`. -/
def RawBuf.terminate (b : RawBuf) (addnul : Bool) (i : Nat) : RawBuf :=
  if addnul then { b with mem := b.mem.set i 0 } else b

/-- `rwbuf_readline`: the return value, the line that is stored, and the buffer. -/
def rawReadline (b : RawBuf) (max : Nat) (flags : ReadFlags) :
    Int × Option (Nat × Nat) × RawBuf :=
  let rlen := b.widx - b.ridx
  if b.unread.idxOf 10 < b.unread.length then
    let llen := b.unread.idxOf 10 + 1
    let len := (trimEol (b.unread.take llen)).length
    -- the terminator overwrites the CR or the LF
    let b' := (b.advance llen).terminate flags.addnul (b.ridx + len)
    if max ≠ 0 ∧ len > max then (-1, some (b.ridx, len), b') else (llen, some (b.ridx, len), b')
  else if max ≠ 0 ∧ rlen > max then (-1, none, b)
  else if flags.eof then (rlen, some (b.ridx, rlen), { b with ridx := 0, widx := 0 })
  else (0, none, b.shift)

/-- `RWBUF_INIT` of a block. -/
def rawStatic (mem : Bytes) : RawBuf :=
  { mem, maxSize := mem.length, size := mem.length, ridx := 0, widx := 0, isGrow := false }

/-- `rwbuf_init`: a dynamic buffer. -/
def rawInit (initSize maxSize : Nat) (alloc : Option (Nat → UInt8)) : Int × RawBuf :=
  let b : RawBuf := { mem := [], maxSize, size := 0, ridx := 0, widx := 0, isGrow := true }
  if initSize ≠ 0 then
    match rawMkspace b initSize alloc with
    | (false, b) => (-1, b)
    | (true, b) => (0, b)
  else (0, b)

/-! ## The contents -/

/-- The buffer in memory holds what `r` holds. -/
structure Models (b : RawBuf) (r : Rwbuf) : Prop where
  wf : r.Wf
  ridx : r.ridx = b.ridx
  widx : r.widx = b.widx
  size : r.size = b.size
  maxSize : r.maxSize = b.maxSize
  isGrow : r.isGrow = b.isGrow
  block : b.mem.length = b.size
  unread : r.unread = b.unread

variable {b : RawBuf} {r : Rwbuf}

theorem Models.raw_wf (h : Models b r) : b.Wf := by
  have hwf := h.wf
  refine ⟨?_, ?_, h.block, ?_⟩
  · rw [← h.ridx, ← h.widx]
    exact hwf.ridx_le
  · rw [← h.widx, ← h.size]
    exact hwf.widx_le
  · rw [← h.size]
    exact hwf.size_lt

theorem RawBuf.Wf.length_unread (h : b.Wf) : b.unread.length = b.widx - b.ridx := by
  have hr := h.ridx_le
  have hw := h.widx_le
  have hb := h.block
  exact length_window (by omega)

section
variable (h : Models b r)
include h

theorem Models.shift : Models b.shift r.shift := by
  have hraw := h.raw_wf
  have hlen := hraw.length_unread
  have hle := hraw.widx_le
  have hblock := h.block
  have hkeep := r.unread_shift
  have hwf := h.wf.shift
  rw [RawBuf.shift]
  rw [Rwbuf.shift] at hkeep hwf ⊢
  rw [h.ridx] at hkeep hwf ⊢
  by_cases hpos : b.ridx > 0
  · rw [if_pos hpos] at hkeep hwf ⊢
    rw [if_pos hpos]
    refine ⟨hwf, rfl, ?_, h.size, h.maxSize, h.isGrow, ?_, ?_⟩
    · show r.unread.length = b.widx - b.ridx
      rw [h.unread, hlen]
    · exact (length_blit (by rw [← RawBuf.unread]; omega)).trans hblock
    · rw [h.unread]
      have hwin := window_blit b.unread (Nat.zero_le b.mem.length)
      rw [hlen] at hwin
      exact hwin.symm
  · rw [if_neg hpos] at hkeep hwf ⊢
    rw [if_neg hpos]
    exact h

theorem Models.growSize_eq (need : Nat) :
    growSize r need = alignUp (if b.size * 2 % 2 ^ 64 < (b.widx + need) % 2 ^ 64 then
      (b.widx + need) % 2 ^ 64 else b.size * 2 % 2 ^ 64) % 2 ^ 64 := by
  rw [growSize, h.size, h.widx]

theorem Models.realloc {size : Nat} (hsize : b.size < size) (alloc : Option (Nat → UInt8)) :
    (b.realloc size alloc).1 = (decide (alloc.isSome = true ∧ size < 2 ^ 62)) ∧
      Models (b.realloc size alloc).2
        (if alloc.isSome = true ∧ size < 2 ^ 62 then { r with size } else r) := by
  have hraw := h.raw_wf
  cases alloc with
  | none =>
    rw [RawBuf.realloc, if_neg (by omega)]
    exact ⟨by simp, h⟩
  | some fresh =>
    rw [RawBuf.realloc]
    by_cases hlt : size < 2 ^ 62
    · rw [if_pos hlt, if_pos ⟨rfl, hlt⟩]
      have hr := hraw.ridx_le
      have hw := hraw.widx_le
      have hb := h.block
      refine ⟨(decide_eq_true ⟨rfl, hlt⟩).symm, ⟨h.wf.ridx_le, ?_, hlt⟩, h.ridx, h.widx, rfl,
        h.maxSize, h.isGrow, length_resized .., ?_⟩
      · have hwidx := h.widx
        show r.widx ≤ size
        omega
      · exact h.unread.trans (window_resized _ (by omega) (by omega)).symm
    · rw [if_neg hlt, if_neg fun hand => hlt hand.2]
      exact ⟨(decide_eq_false fun hand => hlt hand.2).symm, h⟩

theorem models_mkspace {need : Nat} (hneed : b.widx + need + 127 < 2 ^ 64)
    (alloc : Option (Nat → UInt8)) :
    (rawMkspace b need alloc).1 = (rwbufMkspace r need alloc.isSome).1 ∧
      Models (rawMkspace b need alloc).2 (rwbufMkspace r need alloc.isSome).2 := by
  have hs := h.shift
  have hgrow := hs.growSize_eq need
  have hwidx := r.widx_shift_le
  have hle := le_growSize hs.wf (show r.shift.widx + need + 127 < 2 ^ 64 by
    have := h.widx
    omega)
  have hw := hs.widx
  have hspace_eq : rwbufSpace r = b.size - b.widx := by
    rw [rwbufSpace_eq h.wf.widx_le, h.size, h.widx]
  have hroom_eq : rwbufSpace r.shift = b.shift.size - b.shift.widx := by
    rw [rwbufSpace_eq hs.wf.widx_le, hs.size, hs.widx]
  rw [rawMkspace, rwbufMkspace, hspace_eq]
  dsimp only
  by_cases hspace : b.size - b.widx ≥ need
  · rw [if_pos hspace, if_pos hspace]
    exact ⟨rfl, h⟩
  · rw [if_neg hspace, if_neg hspace, hroom_eq, ← hgrow]
    by_cases hroom : b.shift.size - b.shift.widx < need
    · rw [if_pos hroom, if_pos hroom]
      have hgrows := hs.isGrow
      by_cases hfix : (!r.shift.isGrow) = true
      · rw [if_pos hfix, if_pos (hgrows ▸ hfix)]
        exact ⟨rfl, hs⟩
      · have hfix' : ¬ (!b.shift.isGrow) = true := hgrows ▸ hfix
        have hlimit := hs.maxSize
        rw [if_neg hfix, if_neg hfix']
        by_cases hmax : b.shift.maxSize ≠ 0 ∧ growSize r.shift need > b.shift.maxSize
        · have hmax' : r.shift.maxSize ≠ 0 ∧ growSize r.shift need > r.shift.maxSize := by
            rw [hlimit]
            exact hmax
          rw [if_pos hmax, if_pos hmax']
          exact ⟨rfl, hs⟩
        · have hmax' : ¬ (r.shift.maxSize ≠ 0 ∧ growSize r.shift need > r.shift.maxSize) := by
            rw [hlimit]
            exact hmax
          rw [if_neg hmax, if_neg hmax']
          obtain ⟨hrc, hm⟩ := hs.realloc (show b.shift.size < growSize r.shift need by omega) alloc
          by_cases hok : alloc.isSome = true ∧ growSize r.shift need < 2 ^ 62
          · rw [if_pos hok] at hm ⊢
            exact ⟨hrc.trans (decide_eq_true hok), hm⟩
          · rw [if_neg hok] at hm ⊢
            exact ⟨hrc.trans (decide_eq_false hok), hm⟩
    · rw [if_neg hroom, if_neg hroom]
      exact ⟨rfl, hs⟩

theorem models_fill {bytes : Bytes} (hfit : bytes.length ≤ b.size - b.widx) :
    Models (rawFill b bytes) { r with data := r.data ++ bytes } := by
  have hraw := h.raw_wf
  have hr := hraw.ridx_le
  have hw := hraw.widx_le
  have hb := h.block
  have hwidx : Rwbuf.widx { r with data := r.data ++ bytes } = b.widx + bytes.length := by
    rw [← h.widx]
    exact length_append
  have hpos : b.widx ≤ b.mem.length := by omega
  refine ⟨⟨?_, ?_, h.wf.size_lt⟩, h.ridx, hwidx, h.size, h.maxSize, h.isGrow, ?_, ?_⟩
  · rw [hwidx]
    have := h.ridx
    show r.ridx ≤ b.widx + bytes.length
    omega
  · rw [hwidx]
    have := h.size
    show b.widx + bytes.length ≤ r.size
    omega
  · exact (length_blit (by omega)).trans hb
  · have hdata : Rwbuf.unread { r with data := r.data ++ bytes } = r.unread ++ bytes :=
      drop_append_of_le_length h.wf.ridx_le
    have hlen : b.widx + bytes.length - b.ridx = (b.widx - b.ridx) + bytes.length := by omega
    have hend : b.ridx + (b.widx - b.ridx) = b.widx := by omega
    rw [hdata, h.unread, RawBuf.unread, RawBuf.unread, rawFill]
    dsimp only
    rw [hlen, window_add, hend, window_blit _ hpos, window_blit_before hpos (by omega)]

theorem models_write {mem : Bytes} (hmem : b.widx + mem.length + 127 < 2 ^ 64)
    (alloc : Option (Nat → UInt8)) :
    (rawWrite b mem alloc).1 = (rwbufWrite r mem alloc.isSome).1 ∧
      Models (rawWrite b mem alloc).2 (rwbufWrite r mem alloc.isSome).2 := by
  obtain ⟨hrc, hm⟩ := models_mkspace h hmem _
  have hspace := (h.wf.mkspace (by rw [h.widx]; exact hmem) alloc.isSome).2
  rw [rawWrite, rwbufWrite]
  cases hraw : rawMkspace b mem.length alloc with
  | mk ok _ =>
    cases hmk : rwbufMkspace r mem.length alloc.isSome with
    | mk _ _ =>
      rw [hraw, hmk] at hrc hm
      rw [hmk] at hspace
      subst hrc
      cases ok with
      | false => exact ⟨rfl, hm⟩
      | true =>
        have hroom := hspace rfl
        have hsize := hm.size
        have hwidx := hm.widx
        exact ⟨rfl, models_fill hm (by omega)⟩

theorem Models.advance {llen : Nat} (hlen : llen ≤ b.widx - b.ridx) :
    Models (b.advance llen) (r.skip llen) := by
  have hb := h.block
  have hwf := h.wf.skip (show llen ≤ rwbufUsed r by rw [rwbufUsed, h.widx, h.ridx]; exact hlen)
  have hunread := r.unread_skip llen
  have hcond : r.ridx + llen = r.widx ↔ b.ridx + llen = b.widx := by rw [h.ridx, h.widx]
  have hdrop : r.unread.drop llen = window b.mem (b.ridx + llen) (b.widx - (b.ridx + llen)) := by
    rw [h.unread, RawBuf.unread, window, drop_take, drop_drop]
    congr 1
    omega
  rw [RawBuf.advance]
  rw [Rwbuf.skip] at hwf hunread ⊢
  by_cases hend : b.ridx + llen = b.widx
  · rw [if_pos (hcond.2 hend)] at hwf hunread ⊢
    rw [if_pos hend]
    exact ⟨hwf, rfl, rfl, h.size, h.maxSize, h.isGrow, hb, rfl⟩
  · rw [if_neg (hcond.not.2 hend)] at hwf hunread ⊢
    rw [if_neg hend]
    refine ⟨hwf, ?_, h.widx, h.size, h.maxSize, h.isGrow, hb, hunread.trans hdrop⟩
    rw [h.ridx]

theorem Models.terminate (addnul : Bool) {i : Nat} (hi : i < b.ridx ∨ b.widx ≤ i) :
    Models (b.terminate addnul i) r := by
  cases addnul with
  | false => exact h
  | true =>
    refine ⟨h.wf, h.ridx, h.widx, h.size, h.maxSize, h.isGrow, ?_, ?_⟩
    · exact length_set.trans h.block
    · exact h.unread.trans (window_set (by omega)).symm

end

theorem window_terminate (b : RawBuf) (addnul : Bool) (pos len : Nat) :
    window (b.terminate addnul (pos + len)).mem pos len = window b.mem pos len := by
  cases addnul with
  | false => rfl
  | true => exact window_set (.inr le_rfl)

theorem mem_advance (b : RawBuf) (llen : Nat) : (b.advance llen).mem = b.mem := by
  rw [RawBuf.advance]
  split
  · rfl
  · rfl

theorem advance_outside (b : RawBuf) {llen i : Nat} (hi : i < llen) :
    b.ridx + i < (b.advance llen).ridx ∨ (b.advance llen).widx ≤ b.ridx + i := by
  rw [RawBuf.advance]
  split
  · exact .inr (Nat.zero_le _)
  · exact .inl (show b.ridx + i < b.ridx + llen by omega)

theorem length_trimEol_lt {line : Bytes} (h : line.getLast? = some 10) :
    (trimEol line).length < line.length := by
  have hne : line ≠ [] := by
    rintro rfl
    simp at h
  have hpos := length_pos_iff.2 hne
  unfold trimEol
  rw [if_pos h]
  dsimp only
  split
  · simp
    omega
  · rw [length_dropLast]
    omega

theorem trimEol_eq_take (line : Bytes) : trimEol line = line.take (trimEol line).length := by
  have hdrop : ∀ l : Bytes, l.dropLast <+: l := fun l => dropLast_prefix l
  have hpre : trimEol line <+: line := by
    unfold trimEol
    dsimp only
    split_ifs
    · exact (hdrop _).trans (hdrop _)
    · exact hdrop _
    · exact hdrop _
    · exact prefix_refl _
  exact prefix_iff_eq_take.1 hpre

theorem getLast?_take_idxOf {q : Bytes} (h : q.idxOf 10 < q.length) :
    (q.take (q.idxOf 10 + 1)).getLast? = some 10 := by
  rw [take_succ_eq_append_getElem h, List.getLast?_append, getElem_idxOf]
  rfl

theorem models_readline (h : Models b r) (max : Nat) (flags : ReadFlags) :
    (rawReadline b max flags).1 = (rwbufReadline r max flags.eof).1 ∧
      Models (rawReadline b max flags).2.2 (rwbufReadline r max flags.eof).2.2 ∧
      ((rawReadline b max flags).2.1.map (rawReadline b max flags).2.2.text).getD [] =
        (rwbufReadline r max flags.eof).2.1 := by
  have hraw := h.raw_wf
  have hlen := hraw.length_unread
  have hused : rwbufUsed r = b.widx - b.ridx := by rw [rwbufUsed, h.widx, h.ridx]
  rw [rawReadline, rwbufReadline, hused, h.unread]
  dsimp only
  by_cases heol : b.unread.idxOf 10 < b.unread.length
  · rw [if_pos heol, if_pos heol]
    -- `llen` bytes are read, the first `len` of them are the line
    obtain ⟨llen, hllen⟩ : ∃ llen, llen = b.unread.idxOf 10 + 1 := ⟨_, rfl⟩
    obtain ⟨line, hline⟩ : ∃ line, line = trimEol (b.unread.take llen) := ⟨_, rfl⟩
    have hlast := getLast?_take_idxOf heol
    rw [← hllen] at hlast ⊢
    rw [← hline]
    have htrim := length_trimEol_lt hlast
    rw [← hline, length_take] at htrim
    have hm := (h.advance (by omega)).terminate flags.addnul
      (advance_outside b (show line.length < llen by omega))
    have htext : RawBuf.text ((b.advance llen).terminate flags.addnul (b.ridx + line.length))
        (b.ridx, line.length) = line := by
      have htake := trimEol_eq_take (b.unread.take llen)
      rw [← hline, take_take, Nat.min_eq_left (by omega)] at htake
      rw [RawBuf.text, window_terminate, mem_advance, htake, length_take,
        Nat.min_eq_left (by omega), RawBuf.unread, window, window, take_take,
        Nat.min_eq_left (by omega)]
    by_cases hbig : max ≠ 0 ∧ line.length > max
    · rw [if_pos hbig, if_pos hbig]
      exact ⟨rfl, hm, htext⟩
    · rw [if_neg hbig, if_neg hbig]
      exact ⟨rfl, hm, htext⟩
  · rw [if_neg heol, if_neg heol]
    by_cases hbig : max ≠ 0 ∧ b.widx - b.ridx > max
    · rw [if_pos hbig, if_pos hbig]
      exact ⟨rfl, h, rfl⟩
    · rw [if_neg hbig, if_neg hbig]
      cases heof : flags.eof with
      | true =>
        refine ⟨rfl, ?_, rfl⟩
        exact ⟨⟨Nat.le_refl 0, Nat.zero_le _, h.wf.size_lt⟩, rfl, rfl, h.size, h.maxSize,
          h.isGrow, h.block, rfl⟩
      | false => exact ⟨rfl, h.shift, rfl⟩

end CDbK8s.Sock
