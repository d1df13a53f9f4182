import CDbK8s.Lib.Pieces
import CDbK8s.Sock.Fifo

/-!
# Lines of a stream that comes in chunks

A complete line is measured without its CR and LF, but one that is not complete yet as it is. So a
line of `max` bytes is too long while its CR has come and its LF has not: the lines that are read
depend on the chunks exactly for the streams that have such a line (`Torn`).
-/

namespace CDbK8s.Sock

open Base Lib.Pieces List

variable {x : Bytes} {segs : List (Bytes × Bool)} {fuel : Nat}
variable {b : Rwbuf}

/-! ## Feeding a buffer -/

/-- What the last call of `rwbuf_readline` returned: 0 or an error. -/
inductive Verdict where
  | waiting
  | tooLong
deriving DecidableEq

/-- The lines taken out of a buffer, and why they end. -/
structure Batch where
  lines : List Bytes
  verdict : Verdict
  buf : Rwbuf

/-- Calls of `rwbuf_readline` until it returns 0 or an error, at most `fuel`. -/
def readLines (max : Nat) : Nat → Rwbuf → Option Batch
  | 0, _ => none
  | fuel + 1, b =>
    let r := rwbufReadline b max false
    if r.1 = 0 then some ⟨[], .waiting, r.2.2⟩
    else if r.1 < 0 then some ⟨[], .tooLong, r.2.2⟩
    else (readLines max fuel r.2.2).map fun t => { t with lines := r.2.1 :: t.lines }

/-- Each chunk is appended and the lines are read, up to the first error. The lines, and
the verdict on the one behind them; nothing if there is no room for a chunk. With each
chunk comes the answer of `realloc`. -/
def feed (max : Nat) : List (Bytes × Bool) → Rwbuf → Option (List Bytes × Verdict)
  | [], _ => some ([], .waiting)
  | (chunk, reallocOk) :: rest, b =>
    let w := rwbufWrite b chunk reallocOk
    if w.1 ≠ 0 then none
    else
      match readLines max (w.2.unread.length + 1) w.2 with
      | none => none
      | some ⟨lines, .tooLong, _⟩ => some (lines, .tooLong)
      | some ⟨lines, .waiting, b⟩ => (feed max rest b).map fun r => (lines ++ r.1, r.2)

/-! ## Reading what there is -/

/-- The lines up to the first that is too long, and the verdict on it or on the rest. -/
def judged (max : Nat) (rest : Bytes) : List Bytes → List Bytes × Verdict
  | [] => ([], if max < rest.length then .tooLong else .waiting)
  | l :: ls =>
    if max < (stripCr l).length then ([], .tooLong)
    else (stripCr l :: (judged max rest ls).1, (judged max rest ls).2)

/-- What is read of the contents `q` of a buffer. -/
def reading (max : Nat) (q : Bytes) : List Bytes × Verdict :=
  judged max (pieces 10 q).2 (pieces 10 q).1

section
variable {max : Nat}

theorem reading_line {l : Bytes} (hl : 10 ∉ l) (r : Bytes) :
    reading max (l ++ 10 :: r) = if max < (stripCr l).length then ([], .tooLong)
      else (stripCr l :: (reading max r).1, (reading max r).2) := by
  rw [reading, pieces_sep hl]
  rfl

theorem reading_free {q : Bytes} (hq : 10 ∉ q) :
    reading max q = ([], if max < q.length then .tooLong else .waiting) := by
  rw [reading, pieces_free hq]
  rfl

theorem trimEol_eq (l : Bytes) : trimEol (l ++ [10]) = stripCr l := by
  unfold trimEol
  rw [List.getLast?_concat, dropLast_concat]
  rfl

theorem Rwbuf.size_skip (b : Rwbuf) (len : Nat) : (b.skip len).size = b.size := by
  unfold Rwbuf.skip
  split <;> rfl

theorem readLines_last {b' : Rwbuf} {line : Bytes} {verdict : Verdict}
    (h : rwbufReadline b max false = (if verdict = .waiting then 0 else -1, line, b')) :
    readLines max (fuel + 1) b = some ⟨[], verdict, b'⟩ := by
  rw [readLines, h]
  cases verdict <;> rfl

theorem readLines_next {n : Nat} {b' : Rwbuf} {line : Bytes}
    (h : rwbufReadline b max false = (((n + 1 : Nat) : Int), line, b')) :
    readLines max (fuel + 1) b =
      (readLines max fuel b').map fun t => { t with lines := line :: t.lines } := by
  rw [readLines, h]
  rw [if_neg (by omega), if_neg (by omega)]

theorem readLines_eq (hmax : 0 < max) (hfuel : b.unread.length < fuel) (hb : b.ridx ≤ b.widx) :
    ∃ b', readLines max fuel b =
        some ⟨(reading max b.unread).1, (reading max b.unread).2, b'⟩ ∧ b'.ridx ≤ b'.widx ∧
      b'.size = b.size ∧
      ((reading max b.unread).2 = .waiting → b'.unread = (pieces 10 b.unread).2) := by
  induction fuel generalizing b with
  | zero => exact absurd hfuel (Nat.not_lt_zero _)
  | succ fuel ih =>
    have hused := length_unread b
    rcases free_or_sep 10 b.unread with hfree | ⟨l, r, hl, hlr⟩
    · have hres := readline_unfinished hfree max false
      rw [reading_free hfree, pieces_free hfree]
      by_cases hlong : max < b.unread.length
      · rw [if_pos ⟨hmax.ne', by omega⟩] at hres
        rw [if_pos hlong]
        exact ⟨b, readLines_last hres, hb, rfl, nofun⟩
      · rw [if_neg fun hboth => hlong (by omega)] at hres
        rw [if_neg hlong]
        exact ⟨b.shift, readLines_last hres, ridx_shift_le b, b.size_shift, fun _ => b.unread_shift⟩
    · have hlen : b.unread.length = l.length + (r.length + 1) := by
        simp [hlr]
      have hskip : (b.skip (l.length + 1)).ridx ≤ (b.skip (l.length + 1)).widx := by
        unfold rwbufUsed at hused
        exact ridx_skip_le (by omega)
      have hrest : (b.skip (l.length + 1)).unread = r := by
        rw [Rwbuf.unread_skip, hlr]
        simp
      have hres := readline_found hlr hl max false
      rw [trimEol_eq] at hres
      rw [hlr, reading_line hl, pieces_sep hl]
      by_cases hlong : max < (stripCr l).length
      · rw [if_pos ⟨hmax.ne', hlong⟩] at hres
        rw [if_pos hlong]
        exact ⟨b.skip _, readLines_last hres, hskip, b.size_skip _, nofun⟩
      · rw [if_neg fun hboth => hlong hboth.2] at hres
        obtain ⟨b', hlines, hb', hsize, hwait⟩ := @ih _ (by rw [hrest]; omega) hskip
        rw [hrest] at hlines hwait
        rw [if_neg hlong, readLines_next hres, hlines]
        exact ⟨b', rfl, hb', hsize.trans (b.size_skip _), hwait⟩

variable (hx : (reading max x).2 = .waiting)
include hx

theorem reading_append (y : Bytes) :
    reading max (x ++ y) = ((reading max x).1 ++ (reading max ((pieces 10 x).2 ++ y)).1,
        (reading max ((pieces 10 x).2 ++ y)).2) := by
  induction hn : x.length using Nat.strong_induction_on generalizing x with
  | _ n ih =>
    rcases free_or_sep 10 x with hfree | ⟨l, r, hl, rfl⟩
    · simp [reading_free hfree, pieces_free hfree]
    · rw [reading_line hl] at hx ⊢
      by_cases hlong : max < (stripCr l).length
      · rw [if_pos hlong] at hx
        cases hx
      · rw [if_neg hlong] at hx ⊢
        rw [length_append, length_cons] at hn
        rw [append_assoc, cons_append, reading_line hl, if_neg hlong, pieces_sep hl,
          ih r.length (by omega) hx rfl]
        rfl

theorem reading_rest : reading max (pieces 10 x).2 = ([], .waiting) := by
  have hnone := reading_append hx []
  rw [append_nil, append_nil] at hnone
  have hwait : (reading max (pieces 10 x).2).2 = .waiting := (congrArg Prod.snd hnone).symm.trans hx
  rw [reading_free (sep_notMem_rest 10 x)] at hwait ⊢
  exact congrArg _ hwait

end

/-! ## Writes -/

section
variable {b : Rwbuf} {mem : Bytes} {reallocOk : Bool}

theorem rwbufWrite_appends (hb : b.ridx ≤ b.widx) (hok : (rwbufWrite b mem reallocOk).1 = 0) :
    (rwbufWrite b mem reallocOk).2.unread = b.unread ++ mem ∧
      (rwbufWrite b mem reallocOk).2.ridx ≤ (rwbufWrite b mem reallocOk).2.widx := by
  have hkeep := unread_mkspace b mem.length reallocOk
  have horder := ridx_mkspace_le hb mem.length reallocOk
  unfold rwbufWrite at hok ⊢
  cases hmk : rwbufMkspace b mem.length reallocOk with
  | mk ok b' =>
    rw [hmk] at hok hkeep horder
    cases ok with
    | false => exact absurd hok (show ¬ (-1 : Int) = 0 by decide)
    | true =>
      refine ⟨?_, ?_⟩
      · rw [← hkeep]
        exact drop_append_of_le_length horder
      · show b'.ridx ≤ (b'.data ++ mem).length
        rw [length_append]
        exact le_trans horder (Nat.le_add_right _ _)

theorem rwbufWrite_room (hroom : b.unread.length + mem.length ≤ b.size) :
    (rwbufWrite b mem reallocOk).1 = 0 ∧ (rwbufWrite b mem reallocOk).2.size = b.size := by
  rw [length_unread, ← b.widx_shift, ← b.size_shift] at hroom
  have hmade := rwbufMkspace_made b mem.length reallocOk
  unfold rwbufWrite
  generalize rwbufMkspace b mem.length reallocOk = r at hmade ⊢
  cases hmade with
  | fits => exact ⟨rfl, rfl⟩
  | shifted => exact ⟨rfl, b.size_shift⟩
  | grown hfull | fixed hfull | capped hfull | _ hfull =>
    rw [rwbufSpace_eq (by omega)] at hfull
    omega

end

/-! ## Feeding the contents -/

/-- What is read of the contents `q` and the chunks behind them. -/
def fed (max : Nat) : List Bytes → Bytes → List Bytes × Verdict
  | [], _ => ([], .waiting)
  | chunk :: rest, q =>
    match reading max (q ++ chunk) with
    | (lines, .tooLong) => (lines, .tooLong)
    | (lines, .waiting) =>
      (lines ++ (fed max rest (pieces 10 (q ++ chunk)).2).1,
        (fed max rest (pieces 10 (q ++ chunk)).2).2)

theorem feed_eq {max : Nat} (hmax : 0 < max) (hb : b.ridx ≤ b.widx) {r : List Bytes × Verdict}
    (h : feed max segs b = some r) : r = fed max (segs.map Prod.fst) b.unread := by
  induction segs generalizing b r with
  | nil => exact (Option.some.inj h).symm
  | cons seg _ ih =>
    obtain ⟨chunk, reallocOk⟩ := seg
    rw [feed] at h
    by_cases hok : (rwbufWrite b chunk reallocOk).1 = 0
    · obtain ⟨hunread, horder⟩ := rwbufWrite_appends hb hok
      obtain ⟨b', hlines, hb', -, hwait⟩ :=
        readLines_eq hmax (Nat.lt_succ_self (rwbufWrite b _ _).2.unread.length) horder
      rw [if_neg fun hne => hne hok, hlines] at h
      rw [hunread] at h hwait
      rw [map_cons, fed]
      cases hread : reading max _ with
      | mk _ verdict =>
        rw [hread] at h hwait
        cases verdict with
        | tooLong => exact (Option.some.inj h).symm
        | waiting =>
          obtain ⟨r', hrest, rfl⟩ := Option.map_eq_some_iff.1 h
          have hnext := ih hb' hrest
          rw [hwait rfl] at hnext
          rw [hnext]
    · rw [if_pos hok] at h
      cases h

theorem feed_room {max : Nat} (hmax : 0 < max) (hb : b.ridx ≤ b.widx)
    (hroom : b.unread.length + (segs.map Prod.fst).flatten.length ≤ b.size) :
    ∃ r, feed max segs b = some r := by
  induction segs generalizing b with
  | nil => exact ⟨_, rfl⟩
  | cons seg _ ih =>
    obtain ⟨chunk, reallocOk⟩ := seg
    rw [map_cons, flatten_cons, length_append] at hroom
    obtain ⟨hok, hsize⟩ := @rwbufWrite_room b chunk _ (by dsimp only at hroom; omega)
    obtain ⟨hunread, horder⟩ := rwbufWrite_appends hb hok
    obtain ⟨b', hlines, hb', hsize', hwait⟩ :=
      readLines_eq hmax (Nat.lt_succ_self (rwbufWrite b _ _).2.unread.length) horder
    rw [feed, if_neg fun hne => hne hok, hlines]
    cases hverdict : (reading max (rwbufWrite b chunk reallocOk).2.unread).2 with
    | tooLong => exact ⟨_, rfl⟩
    | waiting =>
      obtain ⟨front, hfront, -⟩ := exists_front 10 (b.unread ++ chunk)
      have hle := congrArg List.length hfront
      rw [length_append, length_append] at hle
      have hrest := hwait hverdict
      rw [hunread] at hrest
      obtain ⟨r, hr⟩ := ih hb' (by rw [hrest]; dsimp only at hroom; omega)
      exact ⟨_, by dsimp only; rw [hr]; rfl⟩

/-! ## Chunks -/

/-- Behind lines that are not too long the stream has a line of `max` bytes that ends in
CR LF. -/
def Torn (max : Nat) (stream : Bytes) : Prop :=
  ∃ before l after, stream = before ++ (l ++ 13 :: 10 :: after) ∧ (pieces 10 before).2 = [] ∧
    (∀ p ∈ (pieces 10 before).1, (stripCr p).length ≤ max) ∧ 10 ∉ l ∧ l.length = max

section
variable {max : Nat}

theorem Torn.cons {l r : Bytes} (hl : 10 ∉ l) (hfit : ¬ max < (stripCr l).length)
    (h : Torn max r) : Torn max (l ++ 10 :: r) := by
  obtain ⟨before, m, after, rfl, hend, hlines, hm, hlen⟩ := h
  refine ⟨l ++ 10 :: before, m, after, ?_, ?_, ?_, hm, hlen⟩
  · simp
  · rw [pieces_sep hl, hend]
  · rw [pieces_sep hl]
    intro p hp
    rcases mem_cons.1 hp with rfl | hp
    · exact not_lt.1 hfit
    · exact hlines p hp

theorem torn_line {l : Bytes} (hl : 10 ∉ l) (hlong : max < l.length)
    (hfit : ¬ max < (stripCr l).length) (r : Bytes) : Torn max (l ++ 10 :: r) := by
  unfold stripCr at hfit
  by_cases hcr : l.getLast? = some 13
  · rw [if_pos hcr, length_dropLast] at hfit
    have hcut : l.dropLast ++ [13] = l := List.dropLast_append_getLast? 13 hcr
    refine ⟨[], l.dropLast, r, ?_, rfl, forall_mem_nil _,
      fun hmem => hl (mem_of_mem_dropLast hmem), ?_⟩
    · nth_rewrite 1 [← hcut]
      rw [append_assoc]
      rfl
    · rw [length_dropLast]
      omega
  · rw [if_neg hcr] at hfit
    exact absurd hlong hfit

/-- Unless the stream is torn, an error on a first part of it is the error on the whole. -/
theorem reading_tooLong {y : Bytes} (hx : (reading max x).2 = .tooLong)
    (htorn : ¬ Torn max (x ++ y)) : reading max (x ++ y) = reading max x := by
  induction hn : x.length using Nat.strong_induction_on generalizing x with
  | _ n ih =>
    rcases free_or_sep 10 x with hfree | ⟨l, r, hl, rfl⟩
    · have hlong : max < x.length := by
        by_contra hle
        rw [reading_free hfree, if_neg hle] at hx
        cases hx
      have hwhole : ∀ z, 10 ∉ z → 10 ∉ x ++ z := fun z hz => by
        rw [mem_append, not_or]
        exact ⟨hfree, hz⟩
      rw [reading_free hfree, if_pos hlong]
      rcases free_or_sep 10 y with hy | ⟨l, r, hl, rfl⟩
      · rw [reading_free (hwhole y hy), if_pos (by rw [length_append]; omega)]
      · -- the line that was too long is complete now
        rw [← append_assoc] at htorn ⊢
        have hbig : max < (x ++ l).length := by
          rw [length_append]
          omega
        have hstill : max < (stripCr (x ++ l)).length := by
          by_contra hfit
          exact htorn (torn_line (hwhole l hl) hbig hfit r)
        rw [reading_line (hwhole l hl), if_pos hstill]
    · rw [append_assoc, cons_append] at htorn ⊢
      rw [reading_line hl] at hx ⊢
      rw [reading_line hl]
      by_cases hlong : max < (stripCr l).length
      · simp [if_pos hlong]
      · rw [if_neg hlong] at hx
        rw [length_append, length_cons] at hn
        simp [ih r.length (by omega) hx (fun h => htorn (h.cons hl hlong)) rfl]

theorem Torn.behind {y : Bytes} (hx : (reading max x).2 = .waiting)
    (h : Torn max ((pieces 10 x).2 ++ y)) : Torn max (x ++ y) := by
  induction hn : x.length using Nat.strong_induction_on generalizing x with
  | _ n ih =>
    rcases free_or_sep 10 x with hfree | ⟨l, r, hl, rfl⟩
    · rw [pieces_free hfree] at h
      exact h
    · rw [reading_line hl] at hx
      rw [pieces_sep hl] at h
      rw [length_append, length_cons] at hn
      by_cases hlong : max < (stripCr l).length
      · rw [if_pos hlong] at hx
        cases hx
      · rw [if_neg hlong] at hx
        rw [append_assoc]
        exact (ih r.length (by omega) hx h rfl).cons hl hlong

theorem fed_eq_reading {chunks : List Bytes} {q : Bytes} (hq : reading max q = ([], .waiting))
    (htorn : ¬ Torn max (q ++ chunks.flatten)) :
    fed max chunks q = reading max (q ++ chunks.flatten) := by
  induction chunks generalizing q with
  | nil => rw [flatten_nil, append_nil, hq, fed]
  | cons chunk rest ih =>
    rw [flatten_cons, ← append_assoc] at htorn ⊢
    rw [fed]
    cases hread : reading max _ with
    | mk lines verdict =>
      have hfst : (reading max (q ++ chunk)).1 = lines := by rw [hread]
      have hsnd : (reading max (q ++ chunk)).2 = verdict := by rw [hread]
      cases verdict with
      | tooLong => rw [reading_tooLong hsnd htorn, hread]
      | waiting =>
        -- the lines of the first part go, and what is left is not torn either
        have hrest : ¬ Torn max ((pieces 10 (q ++ chunk)).2 ++ rest.flatten) :=
          fun h => htorn (h.behind hsnd)
        rw [reading_append hsnd, hfst, ih (reading_rest hsnd) hrest]

theorem reading_before {before : Bytes} (hend : (pieces 10 before).2 = [])
    (hlines : ∀ p ∈ (pieces 10 before).1, (stripCr p).length ≤ max) (y : Bytes) :
    reading max (before ++ y) =
      ((pieces 10 before).1.map stripCr ++ (reading max y).1, (reading max y).2) := by
  have hall : ∀ ls : List Bytes, (∀ p ∈ ls, (stripCr p).length ≤ max) →
      judged max [] ls = (ls.map stripCr, .waiting) := by
    intro ls hls
    induction ls with
    | nil => rfl
    | cons l ls ih =>
      rw [judged, if_neg (not_lt.2 (hls l mem_cons_self)), ih fun p hp => hls p (.tail _ hp)]
      rfl
  have hbefore : reading max before = ((pieces 10 before).1.map stripCr, .waiting) := by
    rw [reading, hend, hall _ hlines]
  simp [reading_append (by rw [hbefore]), hbefore, hend]

/-- A torn stream, cut in front of the LF of its line, is read up to that line only. -/
theorem Torn.differs {stream : Bytes} (h : Torn max stream) :
    ∃ x y, stream = x ++ y ∧ fed max [x, y] [] ≠ fed max [stream] [] := by
  obtain ⟨before, l, after, rfl, hend, hlines, hl, hlen⟩ := h
  have hfree : 10 ∉ l ++ [13] := by
    rw [mem_append, not_or]
    exact ⟨hl, by decide⟩
  have hcut : l ++ 13 :: 10 :: after = (l ++ [13]) ++ 10 :: after := by
    rw [append_assoc]
    rfl
  have hstrip : stripCr (l ++ [13]) = l := by
    unfold stripCr
    simp
  have hpart : reading max (before ++ (l ++ [13])) =
      ((pieces 10 before).1.map stripCr, .tooLong) := by
    rw [reading_before hend hlines, reading_free hfree,
      if_pos (by rw [length_append, length_singleton]; omega), append_nil]
  have hwhole : (reading max (before ++ (l ++ 13 :: 10 :: after))).1 =
      (pieces 10 before).1.map stripCr ++ l :: (reading max after).1 := by
    rw [reading_before hend hlines, hcut, reading_line hfree, hstrip, if_neg (by omega)]
  refine ⟨before ++ (l ++ [13]), 10 :: after, ?_, fun heq => ?_⟩
  · simp
  · have hone : (fed max [before ++ (l ++ 13 :: 10 :: after)] []).1 =
        (reading max (before ++ (l ++ 13 :: 10 :: after))).1 := by
      rw [fed, nil_append]
      cases hread : reading max _ with
      | mk _ verdict =>
        cases verdict with
        | tooLong => rfl
        | waiting => exact append_nil _
    have htwo : (fed max [before ++ (l ++ [13]), 10 :: after] []).1 =
        (pieces 10 before).1.map stripCr := by
      simp [fed, hpart]
    have hlens := congrArg List.length (congrArg Prod.fst heq)
    rw [hone, htwo, hwhole, length_append, length_cons] at hlens
    omega

end

def ReadOut (b : Rwbuf) : Prop := b.ridx = b.widx

theorem ReadOut.unread (h : ReadOut b) : b.unread = [] := by
  simp [Rwbuf.unread, show b.ridx = b.data.length from h]

/-- For every stream and every limit: any two ways to cut the stream into chunks, fed to
buffers with room for them, give the same lines and the same verdict on the line behind
them, exactly if the stream is not torn. -/
theorem chunking_invisible_iff {max : Nat} (hmax : 0 < max) (stream : Bytes) :
    (∀ (segs segs' : List (Bytes × Bool)) (b b' : Rwbuf) (r r' : List Bytes × Verdict),
      (segs.map Prod.fst).flatten = stream → (segs'.map Prod.fst).flatten = stream →
      ReadOut b → ReadOut b' → feed max segs b = some r → feed max segs' b' = some r' → r = r') ↔
      ¬ Torn max stream := by
  constructor
  · intro hsame htorn
    obtain ⟨x, y, hxy, hdiff⟩ := htorn.differs
    have hdrained : ReadOut (rwbufStatic stream.length) := rfl
    have hroom : ∀ segs : List (Bytes × Bool), (segs.map Prod.fst).flatten = stream →
        ∃ r, feed max segs (rwbufStatic stream.length) = some r := by
      intro segs hsegs
      refine feed_room hmax le_rfl ?_
      rw [hdrained.unread, hsegs, length_nil, zero_add]
      exact le_rfl
    have htwo : ([(x, false), (y, false)].map Prod.fst).flatten = stream := by
      rw [hxy]
      show x ++ (y ++ []) = x ++ y
      rw [append_nil]
    have hone : ([(stream, false)].map Prod.fst).flatten = stream := append_nil _
    obtain ⟨r, hr⟩ := hroom _ htwo
    obtain ⟨r', hr'⟩ := hroom _ hone
    have heq := hsame _ _ _ _ r r' htwo hone hdrained hdrained hr hr'
    rw [feed_eq hmax le_rfl hr, feed_eq hmax le_rfl hr'] at heq
    exact hdiff heq
  · intro htorn segs _ b _ r r' hsegs hsegs' hb hb' hr hr'
    have hread : ∀ {segs : List (Bytes × Bool)} {b : Rwbuf} {r : List Bytes × Verdict},
        (segs.map Prod.fst).flatten = stream → ReadOut b → feed max segs b = some r →
        r = reading max stream := by
      intro segs b r hsegs hb hr
      rw [feed_eq hmax (le_of_eq hb) hr, hb.unread,
        fed_eq_reading (reading_free not_mem_nil) (by rw [hsegs]; exact htorn), hsegs,
        nil_append]
    rw [hread hsegs hb hr, hread hsegs' hb' hr']

/-- The line `ab`, with a limit of two bytes: it is read if it comes in one chunk, and is
too long if its LF comes in a second one. -/
theorem crlf_cut_refused :
    feed 2 [([97, 98, 13, 10], false)] (rwbufStatic 16) = some ([[97, 98]], .waiting) ∧
      feed 2 [([97, 98, 13], false), ([10], false)] (rwbufStatic 16) = some ([], .tooLong) := by
  decide +kernel

/-- A stream with a shorter line is read the same in any chunks. -/
theorem short_line_any_chunks :
    ¬ Torn 2 [97, 13, 10, 98] ∧
      ∀ (segs : List (Bytes × Bool)) (b : Rwbuf) (r : List Bytes × Verdict),
        (segs.map Prod.fst).flatten = [97, 13, 10, 98] → ReadOut b → feed 2 segs b = some r →
        r = ([[97]], .waiting) := by
  have htorn : ¬ Torn 2 [97, 13, 10, 98] := by
    rintro ⟨before, l, after, hstream, -, -, -, hlen⟩
    have hlens := congrArg List.length hstream
    simp only [length_append, length_cons, length_nil] at hlens
    have hafter : after = [] := eq_nil_of_length_eq_zero (by omega)
    have hlast := congrArg List.getLast? hstream
    rw [hafter] at hlast
    simp at hlast
  refine ⟨htorn, fun segs b r hsegs hb hr => ?_⟩
  exact (chunking_invisible_iff (by decide) [97, 13, 10, 98]).2 htorn _
    [([97, 13, 10, 98], false)] b (rwbufStatic 16) r _ hsegs rfl hb rfl hr (by decide +kernel)

end CDbK8s.Sock
