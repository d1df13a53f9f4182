import CDbK8s.Sock.LineSplit
import CDbK8s.Sock.Model

/-!
# Reading a file by lines

`read_line` of `dns_resolv.c` reads the configuration files through a static buffer. A call hands
out the next line of what the buffer has, or reads more of the file until there is one.
-/

namespace CDbK8s.Resolv

open Base Sock Lib.Pieces List

/-! ## The code -/

/-- `read` of at most `len` bytes, for the results to come on the descriptor: what a result has
beyond that is left for the next read, and behind the last result the file ends. -/
def readFd : List ReadResult → Nat → Option Bytes × List ReadResult
  | [], _ => (some [], [])
  | .data mem :: reads, len =>
    if mem.length ≤ len then (some mem, reads)
    else (some (mem.take len), .data (mem.drop len) :: reads)
  | _ :: reads, _ => (none, reads)

/-- The part of `read_line` under `if (read_state)`: whether the file has ended, and the buffer.
Without space, and after an error, there is nothing. -/
def readMore (buf : Rwbuf) (reads : List ReadResult) :
    Option (Bool × Rwbuf) × List ReadResult :=
  if rwbufSpace buf = 0 then (none, reads)
  else
    match readFd reads (rwbufSpace buf) with
    | (none, reads) => (none, reads)
    | (some mem, reads) => (some (mem.isEmpty, { buf with data := buf.data ++ mem }), reads)

/-- What `read_line` returns: the return value, the line, the buffer and the reads to come. -/
abbrev LineRead := Int × Bytes × Rwbuf × List ReadResult

/-- The part of `read_line` behind the read; `more` is the jump to `read_block`. -/
def takeLine (more : Rwbuf → List ReadResult → Option LineRead) (eof : Bool) (buf : Rwbuf)
    (reads : List ReadResult) : Option LineRead :=
  let r := rwbufReadline buf buf.size eof
  let rc := toInt32 r.1
  if rc ≠ 0 ∨ rwbufUsed r.2.2 = 0 then some (rc, r.2.1, r.2.2, reads) else more r.2.2 reads

/-- `read_line` from `read_block` on, with `read_state` set. -/
def readBlock : Nat → Rwbuf → List ReadResult → Option LineRead
  | 0, _, _ => none
  | fuel + 1, buf, reads =>
    match readMore buf reads with
    | (none, reads) => some (-1, [], buf, reads)
    | (some (eof, buf), reads) => takeLine (readBlock fuel) eof buf reads

/-- `read_line`. Each turn but the last reads a byte at least, so the fuel is enough. -/
def readLine (isOpen : Bool) (buf : Rwbuf) (reads : List ReadResult) : Option LineRead :=
  if !isOpen then some (0, [], buf, reads)
  else if rwbufUsed buf ≠ 0 then takeLine (readBlock (buf.size + 1)) false buf reads
  else readBlock (buf.size + 1) buf reads

/-- What the next calls return. -/
def nextLines : Nat → Rwbuf → List ReadResult → Option (List (Int × Bytes))
  | 0, _, _ => some []
  | n + 1, buf, reads =>
    match readLine true buf reads with
    | none => none
    | some (rc, line, buf, reads) => (nextLines n buf reads).map ((rc, line) :: ·)

/-- `while ((rc = read_line(fd, &buf, &line)) > 0)`: the lines of the loop, where it ends within
`n` calls. -/
def loopLines : Nat → Rwbuf → List ReadResult → Option (List Bytes)
  | 0, _, _ => none
  | n + 1, buf, reads =>
    match readLine true buf reads with
    | none => none
    | some (rc, line, buf, reads) =>
      if rc > 0 then (loopLines n buf reads).map (line :: ·) else some []

/-! ## The lines of a file -/

/-- The lines of a file as `read_line` is to return them: the length with the line feed, and the
line without a CR before it; behind them what no line feed ends, as it stands. -/
def fileLines (content : Bytes) : List (Int × Bytes) :=
  (pieces 10 content).1.map (fun l => (((l.length + 1 : Nat) : Int), stripCr l)) ++
    if (pieces 10 content).2 = [] then []
    else [(((pieces 10 content).2.length : Int), (pieces 10 content).2)]

/-- All lines fit a buffer of `size` bytes, and there is room behind what no line feed ends. -/
def LinesFit (size : Nat) (content : Bytes) : Prop :=
  (∀ l ∈ (pieces 10 content).1, l.length + 1 ≤ size) ∧ (pieces 10 content).2.length < size

/-- The next line of `x` is `line`, which takes `len` bytes, and `rest` follows. -/
inductive Cut (size : Nat) : Bytes → Nat → Bytes → Bytes → Prop where
  | line {l r : Bytes} (hl : 10 ∉ l) (hfit : l.length + 1 ≤ size) :
      Cut size (l ++ 10 :: r) (l.length + 1) (stripCr l) r
  | last {x : Bytes} (hx : 10 ∉ x) (hfit : x.length < size) : Cut size x x.length x []

/-- The buffer and the reads to come have the bytes `x`, and an empty buffer is at its start. -/
structure Holding (size : Nat) (buf : Rwbuf) (chunks : List Bytes) (x : Bytes) : Prop where
  size_eq : buf.size = size
  ridx_le : buf.ridx ≤ buf.widx
  widx_le : buf.widx ≤ size
  start : buf.unread = [] → buf.ridx = 0
  nonempty : ∀ c ∈ chunks, c ≠ []
  bytes : buf.unread ++ chunks.flatten = x

variable {size len : Nat} {buf : Rwbuf} {chunks : List Bytes} {x line rest : Bytes}

/-- A call of `read_line` returns `line` and leaves `rest`. -/
def Gives (size len : Nat) (line rest : Bytes) (r : Option LineRead) : Prop :=
  ∃ buf chunks, r = some ((len : Int), line, buf, chunks.map ReadResult.data) ∧
    Holding size buf chunks rest

theorem Cut.length_lt (hc : Cut size x len line rest) {p q : Bytes} (hp : 10 ∉ p)
    (hx : p ++ q = x) : p.length < size := by
  cases hc with
  | @line l r _ hfit =>
    rcases append_eq_append_iff.1 hx with ⟨as, rfl, -⟩ | ⟨bs, rfl, hcut⟩
    · simp at hfit
      omega
    · cases bs with
      | nil => rwa [append_nil, ← Nat.succ_le_iff]
      | cons b bs =>
        obtain ⟨rfl, -⟩ := List.cons.inj hcut
        exact absurd (mem_append_right _ mem_cons_self) hp
  | last _ hfit =>
    simp [← hx] at hfit
    omega

section
variable (h : Holding size buf chunks x)
include h

theorem Holding.shift : Holding size buf.shift chunks x := by
  refine ⟨buf.size_shift.trans h.size_eq, ridx_shift_le buf, buf.widx_shift_le.trans h.widx_le,
    fun _ => buf.ridx_shift, h.nonempty, ?_⟩
  rw [buf.unread_shift]
  exact h.bytes

theorem Holding.used_le : rwbufUsed buf ≤ size :=
  (Nat.sub_le _ _).trans h.widx_le

theorem Holding.skip {l r : Bytes} (hline : buf.unread = l ++ 10 :: r) :
    Holding size (buf.skip (l.length + 1)) chunks (r ++ chunks.flatten) := by
  have hunread : (buf.skip (l.length + 1)).unread = r := by
    rw [buf.unread_skip, hline, drop_length_add_append]
    rfl
  have hused : l.length + 1 ≤ rwbufUsed buf := by
    rw [← length_unread, hline, length_append, length_cons]
    omega
  rw [rwbufUsed] at hused
  have hle' := ridx_skip_le (show buf.ridx + (l.length + 1) ≤ buf.widx by omega)
  refine ⟨(buf.size_skip _).trans h.size_eq, hle', ?_, fun hnil => ?_, h.nonempty, by rw [hunread]⟩
  · unfold Rwbuf.skip
    split
    · exact zero_le
    · exact h.widx_le
  · have hend : rwbufUsed (buf.skip (l.length + 1)) = 0 := by
      rw [← length_unread, hnil]
      rfl
    unfold Rwbuf.skip at hend ⊢
    split
    · rfl
    · rename_i hne
      rw [if_neg hne] at hend
      change buf.widx - (buf.ridx + (l.length + 1)) = 0 at hend
      omega

end

theorem toInt32_len {n : Nat} (h : n < 2 ^ 31) : toInt32 n = n := by
  unfold toInt32
  omega

theorem readFd_some (hne : ∀ c ∈ chunks, c ≠ []) {len : Nat} (hpos : 0 < len) :
    ∃ mem chunks', readFd (chunks.map ReadResult.data) len =
        (some mem, chunks'.map ReadResult.data) ∧ mem.length ≤ len ∧
      mem ++ chunks'.flatten = chunks.flatten ∧ (∀ c ∈ chunks', c ≠ []) ∧
      (mem = [] → chunks' = []) := by
  cases chunks with
  | nil => exact ⟨[], [], rfl, zero_le, rfl, hne, fun _ => rfl⟩
  | cons c cs =>
    obtain ⟨hc, hcs⟩ := forall_mem_cons.1 hne
    rw [map_cons, readFd]
    by_cases hlen : c.length ≤ len
    · rw [if_pos hlen]
      exact ⟨c, cs, rfl, hlen, rfl, hcs, fun hnil => absurd hnil hc⟩
    · have hdrop : c.drop len ≠ [] := by
        rw [Ne, drop_eq_nil_iff]
        exact hlen
      rw [if_neg hlen]
      refine ⟨c.take len, c.drop len :: cs, rfl, length_take_le _ _, ?_,
        forall_mem_cons.2 ⟨hdrop, hcs⟩, fun hnil => ?_⟩
      · simp [← append_assoc]
      · exact absurd hnil (by rw [take_eq_nil_iff, not_or]; exact ⟨hpos.ne', hc⟩)

theorem readMore_holding (h : Holding size buf chunks x) (hstart : buf.ridx = 0)
    (hroom : rwbufUsed buf < size) :
    ∃ eof buf' chunks', readMore buf (chunks.map ReadResult.data) =
        (some (eof, buf'), chunks'.map ReadResult.data) ∧
      Holding size buf' chunks' x ∧ (eof = true → chunks' = []) ∧
      (eof = false → rwbufUsed buf < rwbufUsed buf') := by
  have hspace : rwbufSpace buf = size - rwbufUsed buf := by
    have hused : rwbufUsed buf = buf.widx := by rw [rwbufUsed, hstart, Nat.sub_zero]
    rw [rwbufSpace_eq (by rw [h.size_eq]; omega), h.size_eq, hused]
  have hunread : ∀ data : Bytes, Rwbuf.unread { buf with data } = data := fun data => by
    simp [Rwbuf.unread, hstart]
  have hdata : buf.unread = buf.data := hunread buf.data
  obtain ⟨mem, chunks', hread, hlen, hcut, hne, hend⟩ :=
    readFd_some h.nonempty (show 0 < rwbufSpace buf by omega)
  rw [readMore, if_neg (by omega), hread]
  refine ⟨mem.isEmpty, { buf with data := buf.data ++ mem }, chunks', rfl,
    ⟨h.size_eq, le_of_eq_of_le hstart zero_le, ?_, fun _ => hstart, hne, ?_⟩,
    fun hnil => hend (List.isEmpty_iff.1 hnil), fun hsome => ?_⟩
  · show (buf.data ++ mem).length ≤ size
    rw [hspace, ← length_unread, hdata] at hlen
    have hwidx : buf.data.length ≤ size := h.widx_le
    rw [length_append]
    omega
  · rw [hunread, append_assoc, hcut, ← hdata]
    exact h.bytes
  · rw [← length_unread, ← length_unread, hunread, hunread, length_append]
    exact Nat.lt_add_of_pos_right (length_pos_of_ne_nil (List.isEmpty_eq_false_iff.1 hsome))

section
variable (hsize : size < 2 ^ 31) (hc : Cut size x len line rest) (h : Holding size buf chunks x)
include hsize hc h

theorem takeLine_gives {eof : Bool} (hend : eof = true → chunks = [])
    (hgo : eof = false → buf.unread ≠ []) {more : Rwbuf → List ReadResult → Option LineRead}
    (hmore : eof = false → 10 ∉ buf.unread → Gives size len line rest (more buf.shift (chunks.map
      ReadResult.data))) :
    Gives size len line rest (takeLine more eof buf (chunks.map ReadResult.data)) := by
  have hused := h.used_le
  have hbytes := h.bytes
  unfold takeLine
  rcases free_or_sep 10 buf.unread with hfree | ⟨l, r, hl, hline⟩
  · have hfits : ¬ (buf.size ≠ 0 ∧ rwbufUsed buf > buf.size) := by
      rw [h.size_eq]
      omega
    rw [readline_unfinished hfree, if_neg hfits]
    cases eof with
    | false =>
      have hne : rwbufUsed buf.shift ≠ 0 := by
        rw [← length_unread, buf.unread_shift]
        exact fun hnil => hgo rfl (eq_nil_of_length_eq_zero hnil)
      have hgoes : ¬ (toInt32 0 ≠ 0 ∨ rwbufUsed buf.shift = 0) := by
        rw [not_or, not_not]
        exact ⟨rfl, hne⟩
      rw [if_neg Bool.false_ne_true]
      rw [if_neg hgoes]
      exact hmore rfl hfree
    | true =>
      obtain rfl := hend rfl
      rw [flatten_nil, append_nil] at hbytes
      rw [hbytes] at hfree
      cases hc with
      | line => exact absurd (mem_append_right _ mem_cons_self) hfree
      | last hx hfit =>
        have hempty : rwbufUsed { buf with data := [], ridx := 0 } = 0 := rfl
        rw [if_pos rfl]
        rw [if_pos (.inr hempty), ← length_unread, hbytes, toInt32_len (by omega)]
        exact ⟨_, [], rfl, h.size_eq, Nat.le_refl 0, zero_le, fun _ => rfl, h.nonempty, rfl⟩
  · have hx : l ++ 10 :: (r ++ chunks.flatten) = x := by
      simp [← hbytes, hline]
    have hnext := h.skip hline
    rw [readline_found hline hl, trimEol_eq]
    cases hc with
    | @line l' _ hl' hfit =>
      have hlen : l.length = l'.length := by rw [← idxOf_line hl, hx, idxOf_line hl']
      obtain ⟨rfl, hrest⟩ := append_inj hx hlen
      obtain ⟨-, rfl⟩ := List.cons.inj hrest
      have hle : (stripCr l).length ≤ l.length := by
        unfold stripCr
        split
        · rw [length_dropLast]
          exact Nat.sub_le _ _
        · exact le_rfl
      have hfits : ¬ (buf.size ≠ 0 ∧ (stripCr l).length > buf.size) := by
        rw [h.size_eq]
        omega
      rw [if_neg hfits]
      dsimp only
      rw [toInt32_len (by omega)]
      exact ⟨_, chunks, rfl, hnext⟩
    | last hx' =>
      rw [← hx] at hx'
      exact absurd (mem_append_right _ mem_cons_self) hx'

omit h in
theorem readBlock_gives (fuel : Nat) (h : Holding size buf chunks x) (hfree : 10 ∉ buf.unread)
    (hstart : buf.ridx = 0) (hfuel : size - rwbufUsed buf < fuel) :
    Gives size len line rest (readBlock fuel buf (chunks.map ReadResult.data)) := by
  induction fuel generalizing buf chunks with
  | zero => exact absurd hfuel (Nat.not_lt_zero _)
  | succ fuel ih =>
    have hroom : rwbufUsed buf < size := by
      rw [← length_unread]
      exact hc.length_lt hfree h.bytes
    obtain ⟨eof, buf', chunks', hread, h', hend, hgrow⟩ := readMore_holding h hstart hroom
    rw [readBlock, hread]
    refine takeLine_gives hsize hc h' hend (fun hgo hnil => ?_) fun hgo _ => ?_
    · have hlt := hgrow hgo
      rw [← length_unread buf', hnil] at hlt
      exact absurd hlt (Nat.not_lt_zero _)
    · have hlt := hgrow hgo
      refine ih h'.shift (by rwa [buf'.unread_shift]) buf'.ridx_shift ?_
      rw [← length_unread, buf'.unread_shift, length_unread]
      omega

theorem readLine_gives :
    Gives size len line rest (readLine true buf (chunks.map ReadResult.data)) := by
  have hsz := h.size_eq
  rw [readLine]
  by_cases hempty : rwbufUsed buf = 0
  · have hnil : buf.unread = [] := eq_nil_of_length_eq_zero ((length_unread buf).trans hempty)
    rw [if_neg (not_not.2 hempty)]
    refine readBlock_gives hsize hc _ h ?_ (h.start hnil) (by omega)
    rw [hnil]
    exact not_mem_nil
  · rw [if_pos hempty]
    refine takeLine_gives hsize hc h (fun hno => absurd hno Bool.false_ne_true)
      (fun _ hnil => ?_) fun _ _ => ?_
    · exact hempty (by rw [← length_unread, hnil]; rfl)
    · refine readBlock_gives hsize hc _ h.shift (by rwa [buf.unread_shift]) buf.ridx_shift ?_
      omega

theorem nextLines_cons {n : Nat} {lines : List (Int × Bytes)}
    (hnext : ∀ buf' chunks', Holding size buf' chunks' rest → nextLines n buf' (chunks'.map
      ReadResult.data) = some lines) :
    nextLines (n + 1) buf (chunks.map ReadResult.data) = some (((len : Int), line) :: lines) := by
  obtain ⟨buf', chunks', hcall, h'⟩ := readLine_gives hsize hc h
  rw [nextLines, hcall]
  dsimp only
  rw [hnext buf' chunks' h']
  rfl

end

theorem nextLines_end (hsize : size < 2 ^ 31) (hpos : 0 < size) (n : Nat)
    (h : Holding size buf chunks []) :
    nextLines n buf (chunks.map ReadResult.data) = some (replicate n (0, [])) := by
  induction n generalizing buf chunks with
  | zero => rfl
  | succ n ih => exact nextLines_cons hsize (.last not_mem_nil hpos) h fun _ _ h' => ih h'

theorem fileLines_line {l r : Bytes} (hl : 10 ∉ l) :
    fileLines (l ++ 10 :: r) = (((l.length + 1 : Nat) : Int), stripCr l) :: fileLines r := by
  rw [fileLines, pieces_sep hl]
  rfl

theorem nextLines_fit (hsize : size < 2 ^ 31) (n : Nat) (h : Holding size buf chunks x)
    (hfit : LinesFit size x) :
    nextLines ((fileLines x).length + n) buf (chunks.map ReadResult.data) =
      some (fileLines x ++ replicate n (0, [])) := by
  have hpos : 0 < size := Nat.zero_lt_of_lt hfit.2
  induction hk : x.length using Nat.strong_induction_on generalizing x buf chunks with
  | _ k ih =>
    rcases free_or_sep 10 x with hfree | ⟨l, r, hl, rfl⟩
    · by_cases hnil : x = []
      · subst hnil
        exact (nextLines_end hsize hpos _ h).trans (by rw [add_comm]; rfl)
      · have hlines : fileLines x = [((x.length : Int), x)] := by
          rw [fileLines, pieces_free hfree, if_neg hnil]
          rfl
        have hlt := hfit.2
        rw [pieces_free hfree] at hlt
        rw [hlines, add_comm]
        exact nextLines_cons hsize (.last hfree hlt) h fun _ _ => nextLines_end hsize hpos n
    · have hlen := hfit
      rw [LinesFit, pieces_sep hl, forall_mem_cons] at hlen
      rw [length_append, length_cons] at hk
      rw [fileLines_line hl, length_cons, add_right_comm]
      exact nextLines_cons hsize (.line hl hlen.1.1) h fun _ _ h' =>
        ih r.length (by omega) h' ⟨hlen.1.2, hlen.2⟩ rfl

/-- A file whose lines fit the buffer is read line by line: the calls of `read_line` return its
lines in order, then what no line feed ends, and then 0, whatever the reads deliver at a time. -/
theorem read_line_splits (size : Nat) (chunks : List Bytes) (n : Nat) (hsize : size < 2 ^ 31)
    (hchunks : ∀ c ∈ chunks, c ≠ []) (hfit : LinesFit size chunks.flatten) :
    nextLines ((fileLines chunks.flatten).length + (n + 1)) (rwbufStatic size)
        (chunks.map ReadResult.data) =
      some (fileLines chunks.flatten ++ replicate (n + 1) (0, [])) :=
  nextLines_fit hsize _ ⟨rfl, Nat.le_refl 0, zero_le, fun _ => rfl, hchunks, rfl⟩ hfit

/-- The file `ab`, CR LF, LF, `c` in a buffer of four bytes, by reads of three, one and two
bytes. -/
theorem read_line_of_four :
    nextLines 4 (rwbufStatic 4) [.data [97, 98, 13], .data [10], .data [10, 99]] =
      some [(4, [97, 98]), (1, []), (1, [99]), (0, [])] :=
  read_line_splits 4 [[97, 98, 13], [10], [10, 99]] 0 (by decide) (by decide) ⟨by decide, by decide⟩

theorem loopLines_of_next {pre post : List (Int × Bytes)} (hpos : ∀ r ∈ pre, 0 < r.1) :
    ∀ {n buf reads}, nextLines n buf reads = some (pre ++ (0, []) :: post) →
      loopLines n buf reads = some (pre.map Prod.snd) := by
  induction pre with
  | nil =>
    rintro (_ | n) buf reads h
    · cases h
    · rw [nextLines] at h
      rw [loopLines]
      cases hread : readLine true buf reads with
      | none => simp [hread] at h
      | some r =>
        simp [hread] at h
        simp [h.2.1]
  | cons r pre ih =>
    rintro (_ | n) buf reads h
    · cases h
    · rw [nextLines] at h
      rw [loopLines]
      cases hread : readLine true buf reads with
      | none => simp [hread] at h
      | some r' =>
        simp only [hread, cons_append, Option.map_eq_some_iff, cons.injEq] at h
        obtain ⟨rs, hrs, rfl, rfl⟩ := h
        dsimp only
        rw [if_pos (hpos _ mem_cons_self), ih (fun r hr => hpos r (mem_cons_of_mem _ hr)) hrs]
        rfl

/-- The loop over a file whose lines fit the buffer. -/
theorem loopLines_fit {n : Nat} (hsize : size < 2 ^ 31) (hchunks : ∀ c ∈ chunks, c ≠ [])
    (hfit : LinesFit size chunks.flatten) (hn : (fileLines chunks.flatten).length < n) :
    loopLines n (rwbufStatic size) (chunks.map ReadResult.data) =
      some ((fileLines chunks.flatten).map Prod.snd) := by
  obtain ⟨k, rfl⟩ := Nat.exists_eq_add_of_lt hn
  refine loopLines_of_next (fun r hr => ?_)
    (nextLines_fit hsize (k + 1) ⟨rfl, Nat.le_refl 0, zero_le, fun _ => rfl, hchunks, rfl⟩ hfit)
  unfold fileLines at hr
  grind [length_pos_iff]

end CDbK8s.Resolv
