import CDbK8s.Sock.RawBuf
import CDbK8s.Lib.Runs

/-!
# An `rwbuf` is a queue of bytes

What is appended to a buffer, by a write or by a direct fill, leaves it in the same order through
`rwbuf_readline`, whatever calls come in between.
-/

namespace CDbK8s.Sock

open Base Lib.Runs List

/-! ## Calls -/

/-- A call on a buffer, with the answer of the allocator; `fill` is a direct fill. -/
inductive BufEvent where
  | mkspace (need : Nat) (alloc : Option (Nat → UInt8))
  | write (mem : Bytes) (alloc : Option (Nat → UInt8))
  | writev (iovs : List Bytes) (alloc : Option (Nat → UInt8))
  | fill (bytes : Bytes)
  | readline (max : Nat) (flags : ReadFlags)

/-- The buffer after a call. -/
def bufStep (b : RawBuf) : BufEvent → RawBuf
  | .mkspace need alloc => (rawMkspace b need alloc).2
  | .write mem alloc => (rawWrite b mem alloc).2
  | .writev iovs alloc => (rawWritev b iovs alloc).2
  | .fill bytes => rawFill b bytes
  | .readline max flags => (rawReadline b max flags).2.2

/-- The sizes of a call: what it asks for, behind the write index and rounded up, is a
`size_t`; a fill is not longer than `rwbuf_space`. -/
def Allowed (b : RawBuf) : BufEvent → Prop
  | .mkspace need _ => b.widx + need + 127 < 2 ^ 64
  | .write mem _ => b.widx + mem.length + 127 < 2 ^ 64
  | .writev iovs _ => b.widx + iovs.flatten.length + 127 < 2 ^ 64
  | .fill bytes => bytes.length ≤ b.size - b.widx
  | .readline _ _ => True

instance (b : RawBuf) : (e : BufEvent) → Decidable (Allowed b e)
  | .mkspace need _ => inferInstanceAs (Decidable (b.widx + need + 127 < 2 ^ 64))
  | .write mem _ => inferInstanceAs (Decidable (b.widx + mem.length + 127 < 2 ^ 64))
  | .writev iovs _ => inferInstanceAs (Decidable (b.widx + iovs.flatten.length + 127 < 2 ^ 64))
  | .fill bytes => inferInstanceAs (Decidable (bytes.length ≤ b.size - b.widx))
  | .readline _ _ => isTrue trivial

/-- A static buffer over a block, or a dynamic one. -/
inductive BufStart : RawBuf → Prop where
  | static (mem : Bytes) (hmem : mem.length < 2 ^ 62) : BufStart (rawStatic mem)
  | init (initSize maxSize : Nat) (alloc : Option (Nat → UInt8))
      (hsize : initSize + 127 < 2 ^ 64) : BufStart (rawInit initSize maxSize alloc).2

/-! ## The queue -/

/-- What a call appends: nothing when it fails. -/
def appended (b : RawBuf) : BufEvent → Bytes
  | .mkspace _ _ => []
  | .write mem alloc => if (rawWrite b mem alloc).1 = 0 then mem else []
  | .writev iovs alloc => if (rawWritev b iovs alloc).1 = 0 then iovs.flatten else []
  | .fill bytes => bytes
  | .readline _ _ => []

/-- What a call of `rwbuf_readline` takes from the contents `q`: the whole line with its
terminator, also when it is too long; without a terminator everything under
`RWBUF_EOF`, unless it is too long; and nothing otherwise. -/
def eaten (q : Bytes) (max : Nat) (eof : Bool) : Bytes :=
  if q.idxOf 10 < q.length then q.take (q.idxOf 10 + 1)
  else if max ≠ 0 ∧ q.length > max then []
  else if eof then q
  else []

/-- The line that a call of `rwbuf_readline` stores. -/
def lineOf (q : Bytes) (max : Nat) (eof : Bool) : Option Bytes :=
  if q.idxOf 10 < q.length then some (stripCr (q.take (q.idxOf 10)))
  else if max ≠ 0 ∧ q.length > max then none
  else if eof then some q
  else none

/-- What a call consumes. -/
def consumed (b : RawBuf) : BufEvent → Bytes
  | .readline max flags => eaten b.unread max flags.eof
  | _ => []

/-- What a call reports: a write succeeds or leaves the contents alone, and a line is the
next one of the contents. -/
def Obeys (b : RawBuf) : BufEvent → Prop
  | .mkspace need alloc => (rawMkspace b need alloc).2.unread = b.unread
  | .write mem alloc =>
    ((rawWrite b mem alloc).1 = 0 ∧ (rawWrite b mem alloc).2.unread = b.unread ++ mem) ∨
      ((rawWrite b mem alloc).1 = -1 ∧ (rawWrite b mem alloc).2.unread = b.unread)
  | .writev iovs alloc =>
    ((rawWritev b iovs alloc).1 = 0 ∧
        (rawWritev b iovs alloc).2.unread = b.unread ++ iovs.flatten) ∨
      ((rawWritev b iovs alloc).1 = -1 ∧ (rawWritev b iovs alloc).2.unread = b.unread)
  | .fill bytes => (rawFill b bytes).unread = b.unread ++ bytes
  | .readline max flags =>
    (rawReadline b max flags).2.1.map (rawReadline b max flags).2.2.text =
        lineOf b.unread max flags.eof ∧
      eaten b.unread max flags.eof ++ (rawReadline b max flags).2.2.unread = b.unread

/-! ## One call -/

section
variable {b : RawBuf} {r : Rwbuf}

theorem trimEol_take_idxOf {q : Bytes} (h : q.idxOf 10 < q.length) :
    trimEol (q.take (q.idxOf 10 + 1)) = stripCr (q.take (q.idxOf 10)) := by
  have hlast := getLast?_take_idxOf h
  have hinit : (q.take (q.idxOf 10 + 1)).dropLast = q.take (q.idxOf 10) := by
    simp [take_succ_eq_append_getElem h]
  unfold trimEol
  rw [if_pos hlast, hinit]
  rfl

theorem unread_rwbufReadline (r : Rwbuf) (max : Nat) (eof : Bool) :
    eaten r.unread max eof ++ (rwbufReadline r max eof).2.2.unread = r.unread := by
  rw [eaten, rwbufReadline, ← length_unread]
  dsimp only
  split_ifs
  · simp [Rwbuf.unread_skip]
  · simp [Rwbuf.unread_skip]
  · rfl
  · exact append_nil _
  · exact r.unread_shift

section
variable (h : Models b r)
include h

theorem line_rawReadline (max : Nat) (flags : ReadFlags) :
    (rawReadline b max flags).2.1.map (rawReadline b max flags).2.2.text =
      lineOf b.unread max flags.eof := by
  obtain ⟨-, -, htext⟩ := models_readline h max _
  have hlen := h.raw_wf.length_unread
  rw [rwbufReadline, rwbufUsed, h.widx, h.ridx, h.unread] at htext
  rw [lineOf]
  revert htext
  rw [rawReadline]
  dsimp only
  rw [← hlen]
  by_cases heol : b.unread.idxOf 10 < b.unread.length
  · rw [if_pos heol, ← trimEol_take_idxOf heol]
    split_ifs
    · exact fun htext => congrArg some htext
    · exact fun htext => congrArg some htext
  · split_ifs
    · exact fun _ => rfl
    · exact fun htext => congrArg some htext
    · exact fun _ => rfl

theorem obeys_readline (max : Nat) (flags : ReadFlags) : Obeys b (.readline max flags) := by
  refine ⟨line_rawReadline h max _, ?_⟩
  obtain ⟨-, hm, -⟩ := models_readline h max _
  rw [← hm.unread, ← h.unread]
  exact unread_rwbufReadline r max _

theorem obeys_write {mem : Bytes} (hmem : b.widx + mem.length + 127 < 2 ^ 64)
    (alloc : Option (Nat → UInt8)) : Obeys b (.write mem alloc) := by
  obtain ⟨hrc, hm⟩ := models_write h hmem _
  rw [Obeys, hrc, ← hm.unread, ← h.unread]
  exact (rwbufWrite_fits h.wf (by rw [h.widx]; exact hmem) _).2

theorem bufStep_spec {e : BufEvent} (he : Allowed b e) :
    Obeys b e ∧ ∃ r', Models (bufStep b e) r' := by
  cases e with
  | mkspace need alloc =>
    obtain ⟨-, hm⟩ := models_mkspace h he _
    refine ⟨?_, _, hm⟩
    rw [Obeys, ← hm.unread, ← h.unread]
    exact unread_mkspace r _ _
  | write _ alloc => exact ⟨obeys_write h he _, _, (models_write h he _).2⟩
  | writev _ alloc => exact ⟨obeys_write h he _, _, (models_write h he _).2⟩
  | fill _ =>
    have hm := models_fill h he
    refine ⟨?_, _, hm⟩
    rw [Obeys, ← hm.unread, ← h.unread]
    exact drop_append_of_le_length h.wf.ridx_le
  | readline max flags => exact ⟨obeys_readline h max _, _, (models_readline h max _).2.1⟩

end

theorem step_conserves {e : BufEvent} (h : Obeys b e) :
    b.unread ++ appended b e = consumed b e ++ (bufStep b e).unread := by
  have hwrite : ∀ {mem : Bytes} {rc : Int} {b' : RawBuf},
      (rc = 0 ∧ b'.unread = b.unread ++ mem) ∨ (rc = -1 ∧ b'.unread = b.unread) →
        b.unread ++ (if rc = 0 then mem else []) = b'.unread := by
    intro mem rc b' hcases
    rcases hcases with ⟨rfl, hun⟩ | ⟨rfl, hun⟩
    · rw [if_pos rfl, hun]
    · rw [if_neg (by decide), hun, append_nil]
  cases e with
  | mkspace _ alloc => exact (append_nil _).trans (Eq.symm h)
  | write mem alloc => exact hwrite h
  | writev _ alloc => exact hwrite h
  | fill _ => exact Eq.symm h
  | readline _ _ => exact (append_nil _).trans h.2.symm

theorem models_start {b : RawBuf} (h : BufStart b) : ∃ r, Models b r ∧ r.unread = [] := by
  cases h with
  | static mem hmem =>
    exact ⟨rwbufStatic mem.length, ⟨⟨Nat.le_refl 0, zero_le, hmem⟩, rfl, rfl, rfl, rfl, rfl,
      rfl, rfl⟩, rfl⟩
  | init initSize maxSize alloc _ =>
    have hempty : Models { mem := [], maxSize, size := 0, ridx := 0, widx := 0, isGrow := true }
        { data := [], maxSize, size := 0, ridx := 0, isGrow := true } :=
      ⟨⟨Nat.le_refl 0, Nat.le_refl 0, Nat.two_pow_pos 62⟩, rfl, rfl, rfl, rfl, rfl, rfl, rfl⟩
    by_cases hinit : initSize ≠ 0
    · obtain ⟨-, hm⟩ := models_mkspace hempty (show 0 + initSize + 127 < 2 ^ 64 by omega) _
      have hun := unread_mkspace
        { data := [], maxSize, size := 0, ridx := 0, isGrow := true } initSize alloc.isSome
      refine ⟨_, ?_, hun⟩
      rw [rawInit, if_pos hinit]
      split
      · rename_i hmk
        rw [hmk] at hm
        exact hm
      · rename_i hmk
        rw [hmk] at hm
        exact hm
    · rw [rawInit, if_neg hinit]
      exact ⟨_, hempty, rfl⟩

end

/-! ## Runs -/

/-- Over every run of calls of allowed sizes on a static or dynamic buffer: the indices
are in order at every time, what was appended is what was consumed followed by the
contents, and every call reports what the queue says. -/
theorem rwbuf_is_fifo {b : RawBuf} (hstart : BufStart b) (es : List BufEvent)
    (hes : EveryStep bufStep Allowed b es) :
    EveryState bufStep (fun b => b.ridx ≤ b.widx ∧ b.widx ≤ b.size) b es ∧
    outputs bufStep appended b es = outputs bufStep consumed b es ++ (es.foldl bufStep b).unread ∧
    EveryStep bufStep Obeys b es := by
  obtain ⟨r, hm, hempty⟩ := models_start hstart
  have hstep : ∀ b e, (∃ r, Models b r) → Allowed b e → ∃ r, Models (bufStep b e) r :=
    fun b e ⟨r, hr⟩ he => (bufStep_spec hr he).2
  have hstate := everyState_of_step (P := fun b => b.ridx ≤ b.widx ∧ b.widx ≤ b.size) hstep
    (fun b ⟨r, hr⟩ => ⟨hr.raw_wf.ridx_le, hr.raw_wf.widx_le⟩) es b ⟨r, hm⟩ hes
  have hobeys := everyStep_of_step hstep (fun b e ⟨r, hr⟩ he => (bufStep_spec hr he).1) es b
    ⟨r, hm⟩ hes
  have hconserved := outputs_conserved (fun b e he => step_conserves he) es b hobeys
  rw [← hm.unread, hempty] at hconserved
  exact ⟨hstate, hconserved, hobeys⟩

/-- Two fills and two lines in a static buffer of eight bytes: the second line wraps to
the start of the block. -/
theorem rwbuf_is_fifo_lines :
    let b := rawStatic (replicate 8 0)
    let es := [BufEvent.fill [97, 98, 13, 10, 99], .readline 0 ⟨false, false, true⟩,
      .readline 0 ⟨false, false, false⟩, .fill [100, 10], .readline 0 ⟨true, false, false⟩]
    outputs bufStep appended b es = [97, 98, 13, 10, 99, 100, 10] ∧ outputs bufStep appended b es =
        outputs bufStep consumed b es ++ (es.foldl bufStep b).unread := by
  intro b es
  refine ⟨by decide +kernel, (rwbuf_is_fifo (.static _ (by decide)) es ?_).2.1⟩
  exact ⟨by decide, trivial, trivial, by decide +kernel, trivial, trivial⟩

/-- A dynamic buffer with one byte is asked for `2 ^ 64 - 50` bytes. The sum with `widx`
does not wrap, but rounding it up gives zero: if `realloc` returns a block the size is
zero and the write index lies behind it, and if it returns none it has freed the byte. -/
theorem wrapped_growth_loses_contents :
    let b := (rawInit 128 0 (some fun _ => 0)).2
    let grow := fun alloc => [BufEvent.write [65] none, .mkspace (2 ^ 64 - 50) alloc]
    (bufStep b (.write [65] none)).widx + (2 ^ 64 - 50) < 2 ^ 64 ∧
      (((grow (some fun _ => 0)).foldl bufStep b).size = 0 ∧
        ((grow (some fun _ => 0)).foldl bufStep b).widx = 1) ∧
      (outputs bufStep appended b (grow none) = [65] ∧ outputs bufStep consumed b (grow none) = [] ∧
        ((grow none).foldl bufStep b).unread = []) := by
  decide +kernel

end CDbK8s.Sock
