import CDbK8s.Inet.Text

/-!
# Where `ip6_str_decode` writes

The checks of the write position are commented out in `ip6_str_decode`. A segment moves the position
by two and the counter of segments by one, and an empty segment moves the counter alone, so the
counter bounds the position: `Low` says so for every pass of the loop. The destination has other
bytes behind its 16 here, which no write changes.
-/

namespace CDbK8s.Inet

open Base Lib.Block List

/-! ## The bytes of an IPv4 part -/

/-- The counters of `ip4_str_decode` bound what it has written and read. -/
structure Ip4State.Bounded (s : Ip4State) : Prop where
  dots : s.numDot ≤ 3
  digits : s.numDigit ≤ 3
  wr : s.wr.length = s.numDot
  read : s.numRead ≤ 4 * s.numDot + s.numDigit

theorem ip4Loop_bounded {str : Bytes} {s : Ip4State} (h : s.Bounded) :
    Sum.elim (fun r => (r.1 = 0 ∨ r.1 = 2 ^ 64 - 1) ∧ r.2.length ≤ 3)
      (fun s' => s'.numRead ≤ 16 ∧ s'.wr.length ≤ 3) (ip4Loop str s) := by
  induction str generalizing s with
  | nil =>
    obtain ⟨hdots, hdigits, hwr, hread⟩ := h
    show s.numRead ≤ 16 ∧ s.wr.length ≤ 3
    omega
  | cons _ str ih =>
    obtain ⟨hdots, hdigits, hwr, hread⟩ := h
    have hshort : s.wr.length ≤ 3 := by omega
    rw [ip4Loop]
    split
    · -- a digit
      split
      · exact ⟨.inr rfl, hshort⟩
      · dsimp only
        split
        · exact ⟨.inl rfl, hshort⟩
        · exact ih ⟨hdots, by dsimp only; omega, hwr, by dsimp only; omega⟩
    · split
      · -- a dot
        split
        · exact ⟨.inl rfl, hshort⟩
        · exact ih ⟨by dsimp only; omega, zero_le, by simp [hwr], by dsimp only; omega⟩
      · exact ⟨show s.numRead + 1 ≤ 16 by omega, hshort⟩

theorem ip4StrDecode_bounded (str : Bytes) :
    ((ip4StrDecode str).1 ≤ 16 ∨ (ip4StrDecode str).1 = 2 ^ 64 - 1) ∧
      (ip4StrDecode str).2.length ≤ 4 := by
  have h := @ip4Loop_bounded str ⟨0, 0, 0, 0, []⟩ ⟨zero_le, zero_le, rfl, zero_le⟩
  unfold ip4StrDecode
  cases hr : ip4Loop str ⟨0, 0, 0, 0, []⟩ with
  | inl r =>
    rw [hr] at h
    obtain ⟨hret, hwr⟩ : (r.1 = 0 ∨ r.1 = 2 ^ 64 - 1) ∧ r.2.length ≤ 3 := h
    dsimp only
    omega
  | inr s =>
    rw [hr] at h
    obtain ⟨hread, hwr⟩ : s.numRead ≤ 16 ∧ s.wr.length ≤ 3 := h
    dsimp only
    split
    · exact ⟨.inl zero_le, hwr.trans (by decide)⟩
    · simp
      omega

/-! ## One pass -/

/-- Sixteen bytes with `tail` behind them. -/
def Framed (tail mem : Bytes) : Prop := ∃ dst : Bytes, dst.length = 16 ∧ mem = dst ++ tail

theorem Framed.blit {tail mem bs : Bytes} {pos : Nat} (h : Framed tail mem)
    (hpos : pos + bs.length ≤ 16) : Framed tail (blit mem pos bs) := by
  obtain ⟨dst, hlen, rfl⟩ := h
  refine ⟨Lib.Block.blit dst pos bs, (length_blit (by omega)).trans hlen, ?_⟩
  rw [Lib.Block.blit, Lib.Block.blit, take_append_of_le_length (by omega),
    drop_append_of_le_length (by omega), append_assoc, append_assoc, append_assoc]

/-- There is room for the two bytes of a segment, as the counter of segments tells. -/
structure Ip6State.Low (tail : Bytes) (s : Ip6State) : Prop where
  dst : Framed tail s.dst
  pos : s.dstPtr ≤ 14
  segs : s.dstPtr ≤ 2 * s.numSeg
  gap : ∀ z ∈ s.zeroPtr, z ≤ s.dstPtr

/-- Behind the loop there is room for a last segment, if there is one. -/
structure Ip6State.Done (tail : Bytes) (s : Ip6State) : Prop where
  dst : Framed tail s.dst
  pos : s.dstPtr ≤ 16
  last : s.numHex ≠ 0 → s.dstPtr + 2 ≤ 16
  gap : ∀ z ∈ s.zeroPtr, z ≤ s.dstPtr

def Ip6State.Ahead (s : Ip6State) : Prop := 0 ≤ s.strPtr ∧ (s.segPtr = 0 → s.dstPtr = 0)

/-- What holds after a pass from `s`. A pointer in front of the string comes from its first segment,
so that there is room for one more pass. -/
def CharStep.After (tail : Bytes) (s : Ip6State) : CharStep → Prop
  | .ret _ dst => Framed tail dst
  | .next s' => s'.Low tail ∧ (s.Ahead → s'.Ahead)
  | .skip s' => s'.Low tail ∧ (s.Ahead → s'.Ahead)
  | .stop s' => s'.Done tail ∧ (s.Ahead → s'.strPtr < 0 → s'.Low tail)

section
variable {tail : Bytes} {s : Ip6State}

theorem Ip6State.Low.done (h : s.Low tail) : s.Done tail :=
  ⟨h.dst, h.pos.trans (by decide), fun _ => Nat.add_le_add_right h.pos 2, h.gap⟩

theorem framed_putSeg (h : Framed tail s.dst) (hpos : s.dstPtr + 2 ≤ 16) : Framed tail s.putSeg.dst :=
  h.blit hpos

theorem colon_after {s s' : Ip6State} (hdst : Framed tail s'.dst) (hpos : s'.dstPtr ≤ 14)
    (hsegs : s'.dstPtr ≤ 2 * (s'.numSeg + 1)) (hgap : ∀ z ∈ s'.zeroPtr, z ≤ s'.dstPtr)
    (hptr : s'.strPtr = s.strPtr + 1) (peek : Bool) :
    CharStep.After tail s (if peek then
        if s'.zeroPtr.isSome then .ret 0 s'.dst
        else .skip ({ s' with zeroPtr := some s'.dstPtr, strPtr := s'.strPtr + 1 } : Ip6State).nextSeg
      else .next s'.nextSeg) := by
  have hahead : ∀ p : Int, s'.strPtr ≤ p → s.Ahead → 0 ≤ p ∧ ((p + 1).toNat = 0 → s'.dstPtr = 0) := by
    rintro p hp ⟨hs, -⟩
    omega
  split
  · split
    · exact hdst
    · refine ⟨⟨hdst, hpos, hsegs, fun z hz => ?_⟩, hahead _ (Int.le_add_one le_rfl)⟩
      cases hz
      exact le_rfl
  · exact ⟨⟨hdst, hpos, hsegs, hgap⟩, hahead _ le_rfl⟩

/-- The dot's case. In front of the four bytes there are at most six segments. -/
theorem dot_after (h : s.Low tail) (hlate : ¬ s.numSeg > 6) (chars : Bytes) :
    let r := ip4StrDecode (chars.drop s.segPtr)
    CharStep.After tail s (if r.1 = 0 then .ret 0 (blit s.dst s.dstPtr r.2) else
        .stop { s with
          dst := blit s.dst s.dstPtr r.2, numHex := 0, strPtr := ptrAdd s.segPtr r.1
          dstPtr := s.dstPtr + 4, numSeg := s.numSeg + 2 }) := by
  intro r
  have hsegs := h.segs
  obtain ⟨hret, hquad⟩ := ip4StrDecode_bounded _
  have hdst : Framed tail (blit s.dst s.dstPtr r.2) :=
    h.dst.blit ((Nat.add_le_add_left hquad _).trans (by omega))
  have hgap : ∀ z ∈ s.zeroPtr, z ≤ s.dstPtr + 4 := fun z hz => (h.gap z hz).trans (by omega)
  split
  · exact hdst
  · refine ⟨⟨hdst, by dsimp only; omega, fun hne => absurd rfl hne, hgap⟩, fun ha hneg => ?_⟩
    have hstart : s.segPtr = 0 := by
      have hneg' : ptrAdd s.segPtr (ip4StrDecode (chars.drop s.segPtr)).1 < 0 := hneg
      unfold ptrAdd at hneg'
      split at hneg' <;> omega
    have hptr := ha.2 hstart
    exact ⟨hdst, by dsimp only; omega, by dsimp only; omega, hgap⟩

theorem ip6Char_after (h : s.Low tail) (chars : Bytes) (ch : UInt8) (peek : Bool) :
    (ip6Char chars ch peek s).After tail s := by
  have hs : ({ s with strPtr := s.strPtr + 1 } : Ip6State).Low tail := ⟨h.dst, h.pos, h.segs, h.gap⟩
  have hpos := h.pos
  have hsegs := h.segs
  unfold ip6Char
  dsimp only
  split
  · split
    · exact h.dst
    · exact ⟨⟨h.dst, h.pos, h.segs, h.gap⟩, fun ha => ⟨Int.le_add_one ha.1, ha.2⟩⟩
  · split
    · split
      · exact h.dst
      · rename_i hseg
        by_cases hnum : s.numHex = 0
        · rw [if_neg (not_not.2 hnum)]
          exact colon_after hs.dst hpos (by dsimp only; omega) hs.gap rfl peek
        · rw [if_pos hnum]
          refine colon_after (framed_putSeg hs.dst (by dsimp only; omega)) ?_ ?_ (fun z hz => ?_)
            rfl peek
          · show s.dstPtr + 2 ≤ 14
            omega
          · show s.dstPtr + 2 ≤ 2 * (s.numSeg + 1)
            omega
          · exact (h.gap z hz).trans (Nat.le_add_right _ 2)
    · split
      · split
        · exact h.dst
        · rename_i hlate
          exact dot_after h hlate _
      · exact ⟨hs.done, fun _ _ => hs⟩

end

/-! ## The loop -/

/-- How the loop leaves the bytes behind the address. -/
def LoopEnds (tail : Bytes) : (Nat × Bytes) ⊕ Ip6State → Prop :=
  Sum.elim (fun r => Framed tail r.2) (Ip6State.Done tail)

section
variable {tail : Bytes} {s : Ip6State}

theorem underrun_inside {s0 : Ip6State} (h : (CharStep.stop s).After tail s0) (ha : s0.Ahead)
    (under : UInt8) : LoopEnds tail (underrun under s) := by
  unfold underrun
  split
  · rename_i hneg
    have hstep := ip6Char_after (h.2 ha hneg) [] under false
    split <;> rename_i hc <;> rw [hc] at hstep
    · exact hstep
    · exact hstep.1.done
    · exact hstep.1.done
    · exact hstep.1
  · exact h.1

theorem ip6Loop_inside (str : Bytes) (under : UInt8) (rest : Bytes) (h : s.Low tail) (ha : s.Ahead) :
    LoopEnds tail (ip6Loop str under rest s) := by
  induction hn : rest.length using Nat.strong_induction_on generalizing rest s with
  | _ n ih =>
    match rest with
    | [] => exact h.done
    | [ch] =>
      have hstep := ip6Char_after h str ch false
      rw [ip6Loop]
      split <;> rename_i hc <;> rw [hc] at hstep
      · exact hstep
      · exact hstep.1.done
      · exact hstep.1.done
      · exact underrun_inside hstep ha _
    | ch :: ch' :: rest =>
      have hstep := ip6Char_after h str ch (ch' == 58)
      simp only [length_cons] at hn
      rw [ip6Loop]
      split <;> rename_i hc <;> rw [hc] at hstep
      · exact hstep
      · exact ih _ (by rw [length_cons]; omega) _ hstep.1 (hstep.2 ha) rfl
      · exact ih _ (by omega) _ hstep.1 (hstep.2 ha) rfl
      · exact underrun_inside hstep ha _

theorem gap_inside (hdst : Framed tail s.dst) (hpos : s.dstPtr ≤ 16) {z : Nat} (hz : z ≤ s.dstPtr) :
    Framed tail (blit (blit s.dst (16 - (s.dstPtr - z)) (window s.dst z (s.dstPtr - z))) z
      (replicate (16 - s.dstPtr) 0)) := by
  refine (hdst.blit ?_).blit ?_
  · rw [window, length_take]
    omega
  · rw [length_replicate]
    omega

theorem ip6Finish_inside (h : s.Done tail) : Framed tail (ip6Finish s).2 := by
  unfold ip6Finish
  by_cases hnum : s.numHex = 0
  · rw [if_neg (not_not.2 hnum)]
    dsimp only
    split
    · rename_i z hz
      exact gap_inside h.dst h.pos (h.gap z hz)
    · split <;> exact h.dst
  · have hpos := h.last hnum
    have hdst := framed_putSeg h.dst hpos
    rw [if_pos hnum]
    dsimp only
    split
    · rename_i z hz
      exact gap_inside hdst hpos ((h.gap z hz).trans (Nat.le_add_right _ 2))
    · split <;> exact hdst

end

/-- For every string, `ip6_str_decode` writes to the 16 bytes alone, whatever is behind them; behind
its loop there is room for the last segment, and the gap starts in front of the write position. -/
theorem ip6_decode_inside (str : Bytes) (under : UInt8) {dst : Bytes} (hdst : dst.length = 16)
    (tail : Bytes) :
    (∃ out : Bytes, out.length = 16 ∧ (ip6StrDecode str under (dst ++ tail)).2 = out ++ tail) ∧
      ∀ s, ip6Loop str under str ⟨0, 0, dst ++ tail, 0, none, 0, 0, 0⟩ = .inr s →
        s.dstPtr ≤ 16 ∧ (s.numHex ≠ 0 → s.dstPtr + 2 ≤ 16) ∧ ∀ z ∈ s.zeroPtr, z ≤ s.dstPtr := by
  have hends := @ip6Loop_inside _ ⟨0, 0, dst ++ tail, 0, none, 0, 0, 0⟩ str under str
    ⟨⟨dst, hdst, rfl⟩, zero_le, zero_le, fun z hz => by cases hz⟩ ⟨le_rfl, fun _ => rfl⟩
  unfold ip6StrDecode
  cases hloop : ip6Loop str under str ⟨0, 0, dst ++ tail, 0, none, 0, 0, 0⟩ with
  | inl r =>
    rw [hloop] at hends
    exact ⟨hends, fun s hs => by cases hs⟩
  | inr s =>
    rw [hloop] at hends
    have hdone : s.Done tail := hends
    refine ⟨ip6Finish_inside hdone, fun _ hs => ?_⟩
    cases hs
    exact ⟨hdone.pos, hdone.last, hdone.gap⟩

/-- "::1:2" into 16 bytes with two bytes behind them. -/
theorem gap_fill_inside : (replicate 16 (7 : UInt8)).length = 16 ∧
    ip6StrDecode [58, 58, 49, 58, 50] 0 (replicate 16 7 ++ [7, 7]) =
      (5, replicate 12 0 ++ [0, 1, 0, 2] ++ [7, 7]) ∧
    ∃ out : Bytes, out.length = 16 ∧
      (ip6StrDecode [58, 58, 49, 58, 50] 0 (replicate 16 7 ++ [7, 7])).2 = out ++ [7, 7] :=
  ⟨rfl, by decide +kernel, (ip6_decode_inside [58, 58, 49, 58, 50] 0 rfl [7, 7]).1⟩

end CDbK8s.Inet
