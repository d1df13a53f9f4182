import CDbK8s.Dns.Name

/-!
# Decoding a name

On a name in the shape of `Wire` the decoder returns its text and moves its offset to the end of the
name, as long as the jumps stay within its limit; with more jumps it returns `DNS_EMAXJMP`.
-/

namespace CDbK8s.Dns

open Base Lib.ByteMem List

/-! ## The fuel of the decoder -/

/-- The measure of the loop of `decode_name`, with 17 jumps at most. -/
def stepsLeft (pkt : Pkt) (idx njmp : Nat) : Nat :=
  (17 - njmp) * (pkt.len + 1) + (pkt.len - idx) + 1

theorem stepsLeft_jump (pkt : Pkt) {idx njmp : Nat} (hidx : idx < pkt.len)
    (hnjmp : ¬ njmp > DNS_MAX_JMP) (target : Nat) :
    stepsLeft pkt target (njmp + 1) < stepsLeft pkt idx njmp := by
  have hmax : DNS_MAX_JMP = 16 := rfl
  have hsub : 17 - njmp = 17 - (njmp + 1) + 1 := by omega
  unfold stepsLeft
  rw [hsub, Nat.succ_mul]
  omega

theorem stepsLeft_forward (pkt : Pkt) {idx idx' : Nat} (hidx : idx < pkt.len) (hlt : idx < idx')
    (njmp : Nat) : stepsLeft pkt idx' njmp < stepsLeft pkt idx njmp := by
  unfold stepsLeft
  omega

/-! ## One pass of the loop -/

/-- Before the first jump the offset follows the index. -/
def NameCursor.Tracks (pkt : Pkt) (c : NameCursor) : Prop :=
  c.offset ≤ pkt.len ∧ (c.njmp = 0 → c.offset = c.idx)

/-- What a pass from `c` returns. -/
structure NameCursor.Ret (pkt : Pkt) (nlen : Nat) (c : NameCursor) (r : NameDec) (written : Bytes) :
    Prop where
  overread : r.overread = c.past
  offset : c.offset ≤ r.offset
  room : written.length ≤ c.name.length + c.space
  ok : ∀ out rc, r.res = .ok (out, rc) → written = out ++ [0] ∧
    (c.name.length + c.space = nlen → rc = written.length) ∧ (c.Tracks pkt → r.offset ≤ pkt.len)

/-- What a pass from `c` goes on with. -/
structure NameCursor.Go (pkt : Pkt) (c c' : NameCursor) : Prop where
  past : c'.past = c.past
  offset : c.offset ≤ c'.offset
  room : c'.name.length + c'.space = c.name.length + c.space
  steps : stepsLeft pkt c'.idx c'.njmp < stepsLeft pkt c.idx c.njmp
  tracks : c.Tracks pkt → c'.Tracks pkt

/-- What holds of the outcome of a pass. -/
def NameStep.Holds (ret : NameDec → Bytes → Prop) (go : NameCursor → Prop) : NameStep → Prop
  | .ret r written => ret r written
  | .go c => go c

theorem Pkt.beyond_eq_false {pkt : Pkt} {idx n : Nat} (h : idx + n ≤ pkt.len) :
    pkt.beyond idx n = false := by
  exact decide_eq_false (by omega)

section
variable (pkt : Pkt) (nlen : Nat)

/-- A return with an error, which no more than a label was written in front of. -/
theorem NameCursor.ret_error {c : NameCursor} {e : DnsError} {offset : Nat} {past : Bool}
    {written : Bytes} (hpast : past = c.past) (hoffset : c.offset ≤ offset)
    (hroom : written.length ≤ c.name.length + c.space) :
    c.Ret pkt nlen ⟨.error e, offset, past⟩ written :=
  ⟨hpast, hoffset, hroom, fun _ _ h => by cases h⟩

theorem nameStep_spec (c : NameCursor) :
    (nameStep pkt nlen c).Holds (c.Ret pkt nlen) (c.Go pkt) := by
  have hname : c.name.length ≤ c.name.length + c.space := Nat.le_add_right _ _
  unfold nameStep
  by_cases hidx : c.idx < pkt.len
  · have hread1 : (c.past || pkt.beyond c.idx 1) = c.past := by
      rw [Pkt.beyond_eq_false hidx, Bool.or_false]
    simp only [if_pos hidx, hread1]
    by_cases hptr : 192 ≤ (pkt.buf c.idx).toNat
    · -- a pointer; only the first one moves the offset
      simp only [if_pos hptr]
      split
      · exact NameCursor.ret_error pkt _ rfl le_rfl hname
      · rename_i hend
        split
        · exact NameCursor.ret_error pkt _ rfl le_rfl hname
        · rename_i hlimit
          have hread2 : (c.past || pkt.beyond (c.idx + 1) 1) = c.past := by
            rw [Pkt.beyond_eq_false (by omega), Bool.or_false]
          have hle : c.offset ≤ if c.njmp = 0 then c.offset + 2 else c.offset := by split <;> omega
          rw [hread2]
          split
          · exact NameCursor.ret_error pkt _ rfl hle hname
          · split
            · exact NameCursor.ret_error pkt _ rfl hle hname
            · refine ⟨rfl, hle, rfl, stepsLeft_jump pkt hidx hlimit _, fun h => ⟨?_, nofun⟩⟩
              obtain ⟨hoff, hsame⟩ := h
              dsimp only
              split
              · rename_i hfirst
                omega
              · exact hoff
    · -- a label, or the zero byte
      simp only [if_neg hptr]
      split
      · exact NameCursor.ret_error pkt _ rfl le_rfl hname
      · rename_i hfit
        split
        · exact NameCursor.ret_error pkt _ rfl le_rfl hname
        · rename_i hspace
          have hle : c.offset ≤
              if c.njmp = 0 then c.offset + 1 + (pkt.buf c.idx).toNat else c.offset := by
            split <;> omega
          have htracks : c.Tracks pkt →
              (if c.njmp = 0 then c.offset + 1 + (pkt.buf c.idx).toNat else c.offset) ≤ pkt.len ∧
                (c.njmp = 0 → (if c.njmp = 0 then c.offset + 1 + (pkt.buf c.idx).toNat
                  else c.offset) = c.idx + 1 + (pkt.buf c.idx).toNat) := by
            rintro ⟨hoff, hsame⟩
            by_cases hfirst : c.njmp = 0
            · simp only [if_pos hfirst]
              omega
            · simp only [if_neg hfirst]
              exact ⟨hoff, fun h => absurd h hfirst⟩
          have hread2 : (c.past || pkt.beyond (c.idx + 1) (pkt.buf c.idx).toNat) = c.past := by
            rw [Pkt.beyond_eq_false (by omega), Bool.or_false]
          split
          · split
            · exact NameCursor.ret_error pkt _ rfl hle hname
            · refine ⟨rfl, hle, by rw [length_append, length_singleton]; omega, fun _ _ h => ?_⟩
              cases h
              refine ⟨rfl, fun _ => ?_, fun h => (htracks h).1⟩
              simp
              omega
          · have hlabel : (c.name ++ readBytes pkt.buf (c.idx + 1) (pkt.buf c.idx).toNat).length =
                c.name.length + (pkt.buf c.idx).toNat := by
              simp
            have hsteps := stepsLeft_forward pkt hidx
              (show c.idx < c.idx + 1 + (pkt.buf c.idx).toNat by omega) c.njmp
            rw [hread2]
            split
            · exact NameCursor.ret_error pkt _ rfl hle (by omega)
            · split
              · rename_i hmore
                have hread3 : (c.past || pkt.beyond (c.idx + 1 + (pkt.buf c.idx).toNat) 1) =
                    c.past := by
                  rw [Pkt.beyond_eq_false hmore.1, Bool.or_false]
                refine ⟨hread3, hle, ?_, hsteps, htracks⟩
                simp
                omega
              · exact ⟨rfl, hle, by dsimp only; omega, hsteps, htracks⟩
  · rw [if_neg hidx]
    exact NameCursor.ret_error pkt _ rfl le_rfl hname

/-- The passes of the loop: what it returns and all that was written, if they are not more than
`fuel`. -/
def nameRun : Nat → NameCursor → Option (NameDec × Bytes)
  | 0, _ => none
  | fuel + 1, c =>
    match nameStep pkt nlen c with
    | .ret r written => some (r, written)
    | .go c' => nameRun fuel c'

theorem nameRun_spec : ∀ (fuel : Nat) (c : NameCursor), stepsLeft pkt c.idx c.njmp ≤ fuel →
    ∃ written, nameRun pkt nlen fuel c = some (decodeNameLoop pkt nlen fuel c, written) ∧
      c.Ret pkt nlen (decodeNameLoop pkt nlen fuel c) written := by
  intro fuel
  induction fuel with
  | zero =>
    intro c hfuel
    exact absurd hfuel (by unfold stepsLeft; omega)
  | succ fuel ih =>
    intro c hfuel
    have hstep := nameStep_spec pkt nlen c
    rw [decodeNameLoop, nameRun]
    cases hc : nameStep pkt nlen c with
    | ret r written =>
      rw [hc] at hstep
      exact ⟨written, rfl, hstep⟩
    | go c' =>
      rw [hc] at hstep
      have hgo : c.Go pkt c' := hstep
      obtain ⟨written, hrun, hret⟩ := ih c' (by have := hgo.steps; omega)
      refine ⟨written, hrun, hret.overread.trans hgo.past, hgo.offset.trans hret.offset,
        hret.room.trans hgo.room.le, fun out rc hok => ?_⟩
      obtain ⟨hout, hrc, hoff⟩ := hret.ok out rc hok
      exact ⟨hout, fun hlen => hrc (hgo.room.trans hlen), fun h => hoff (hgo.tracks h)⟩

theorem decodeName_run (offset : Nat) :
    ∃ written, nameRun pkt nlen (19 * (pkt.len + 1)) (NameCursor.start nlen offset) =
        some (decodeName pkt offset nlen, written) ∧
      (NameCursor.start nlen offset).Ret pkt nlen (decodeName pkt offset nlen) written :=
  nameRun_spec pkt _ _ _ (by
    show stepsLeft pkt offset 0 ≤ _
    unfold stepsLeft
    omega)

end

theorem decodeName_overread (pkt : Pkt) (offset nlen : Nat) :
    (decodeName pkt offset nlen).overread = false := by
  obtain ⟨_, -, h⟩ := decodeName_run pkt _ _
  exact h.overread

theorem le_decodeName_offset (pkt : Pkt) (offset nlen : Nat) :
    offset ≤ (decodeName pkt offset nlen).offset := by
  obtain ⟨_, -, h⟩ := decodeName_run pkt _ _
  exact h.offset

/-- The count that is returned is that of the bytes written, and they fit. -/
theorem decodeName_count {pkt : Pkt} {offset nlen rc : Nat} {out : Bytes}
    (h : (decodeName pkt offset nlen).res = .ok (out, rc)) : rc = out.length + 1 ∧ rc ≤ nlen := by
  obtain ⟨written, -, hret⟩ := decodeName_run pkt _ _
  obtain ⟨rfl, hrc, -⟩ := hret.ok out rc h
  have hcount := hrc (zero_add _)
  have hroom : _ ≤ 0 + nlen := hret.room
  simp at hcount hroom
  omega

/-- For every packet, start and size of the buffer: the loop ends, no byte behind the packet is
read, and no more bytes are written than the buffer has; a count that is returned is that of the
bytes written, of which the last is NUL, and the offset is then in the packet. -/
theorem decode_name_safe (pkt : Pkt) {offset : Nat} (hoffset : offset ≤ pkt.len) (nlen : Nat) :
    ∃ written, nameRun pkt nlen (19 * (pkt.len + 1)) (NameCursor.start nlen offset) =
        some (decodeName pkt offset nlen, written) ∧
      (decodeName pkt offset nlen).overread = false ∧ written.length ≤ nlen ∧
      ∀ out rc, (decodeName pkt offset nlen).res = .ok (out, rc) →
        written = out ++ [0] ∧ rc = written.length ∧ (decodeName pkt offset nlen).offset ≤ pkt.len := by
  obtain ⟨written, hrun, hret⟩ := decodeName_run pkt _ _
  refine ⟨written, hrun, hret.overread, hret.room.trans (zero_add _).le, fun out rc hok => ?_⟩
  obtain ⟨hout, hrc, hoff⟩ := hret.ok out rc hok
  exact ⟨hout, hrc (zero_add _), hoff ⟨hoffset, fun _ => rfl⟩⟩

/-- A pointer to itself. -/
theorem self_pointer_safe : (decodeName (.ofBytes [0xc0, 0]) 0 16).overread = false := by
  obtain ⟨_, -, h, -⟩ := @decode_name_safe (.ofBytes [0xc0, 0]) 0 (by decide) 16
  exact h

/-! ## Decoding a name on the wire -/

variable {pkt : Pkt} {nlen pos jumps stop : Nat} {text : Bytes}

theorem Wire.first (h : Wire pkt pos text jumps stop) :
    pos < pkt.len ∧ (pkt.buf pos = 0 → text = []) := by
  cases h with
  | root hpos hzero => exact ⟨hpos, fun _ => rfl⟩
  | @label _ _ _ l _ hne _ hfit hlen _ _ =>
    refine ⟨by omega, fun hzero => absurd ?_ hne⟩
    have hnat := congrArg UInt8.toNat (hlen.symm.trans hzero)
    have hmax : DNS_LABEL_MAXSTR = 63 := rfl
    rw [UInt8.toNat_ofNat_of_lt' (show l.length < 256 by omega)] at hnat
    exact length_eq_zero_iff.1 hnat
  | jump hfit hptr _ _ _ =>
    refine ⟨by omega, fun hzero => ?_⟩
    rw [hzero] at hptr
    exact absurd hptr (by decide)

theorem Wire.lt_stop (h : Wire pkt pos text jumps stop) : pos < stop := by
  induction h with
  | root _ _ => omega
  | label _ _ _ _ _ _ _ => omega
  | jump _ _ _ _ _ _ => omega

theorem decodeNameLoop_root (hpos : pos < pkt.len) (hzero : pkt.buf pos = 0) {space : Nat}
    (hspace : 0 < space) (fuel njmp : Nat) (name : Bytes) (offset : Nat) (past : Bool) :
    decodeNameLoop pkt nlen (fuel + 1) ⟨pos, space, njmp, name, offset, past⟩ =
      ⟨.ok (name, nlen - (space - 1)), if njmp = 0 then offset + 1 else offset, past⟩ := by
  have hread : pkt.beyond pos 1 = false := Pkt.beyond_eq_false hpos
  have hne : ¬ space = 0 := by omega
  rw [decodeNameLoop, nameStep, if_pos hpos, hzero]
  simp [hread, hne]

theorem decodeNameLoop_label {l : Bytes} (hne : l ≠ []) (hshort : l.length ≤ DNS_LABEL_MAXSTR)
    (hfit : pos + 1 + l.length ≤ pkt.len) (hlen : pkt.buf pos = UInt8.ofNat l.length)
    (hread : readBytes pkt.buf (pos + 1) l.length = l) {space : Nat} (hspace : l.length < space)
    (fuel njmp : Nat) (name : Bytes) (offset : Nat) (past : Bool) :
    decodeNameLoop pkt nlen (fuel + 1) ⟨pos, space, njmp, name, offset, past⟩ =
      let offset := if njmp = 0 then offset + (1 + l.length) else offset
      if pos + 1 + l.length < pkt.len ∧ pkt.buf (pos + 1 + l.length) ≠ 0 then
        decodeNameLoop pkt nlen fuel
          ⟨pos + 1 + l.length, space - l.length - 1, njmp, name ++ l ++ [dot], offset, past⟩
      else
        decodeNameLoop pkt nlen fuel
          ⟨pos + 1 + l.length, space - l.length, njmp, name ++ l, offset, past⟩ := by
  have hmax : DNS_LABEL_MAXSTR = 63 := rfl
  have hpos : 0 < l.length := length_pos_iff.2 hne
  have hbyte : (pkt.buf pos).toNat = l.length := by
    rw [hlen]
    exact UInt8.toNat_ofNat_of_lt' (show l.length < 256 by omega)
  have hptr : ¬ 192 ≤ l.length := by omega
  have hpkt : ¬ l.length > pkt.len - (pos + 1) := by omega
  have hout : ¬ l.length > space := by omega
  have hzero : ¬ l.length = 0 := by omega
  have hleft : ¬ space - l.length = 0 := by omega
  have hread1 : pkt.beyond pos 1 = false := Pkt.beyond_eq_false (by omega)
  have hread2 : pkt.beyond (pos + 1) l.length = false := Pkt.beyond_eq_false (by omega)
  rw [decodeNameLoop, nameStep, if_pos (by dsimp only; omega)]
  simp only [hbyte, hptr, if_false, hpkt, hout, hzero, hleft, hread, hread1, hread2, Bool.or_false,
    add_assoc _]
  by_cases hmore : pos + (1 + l.length) < pkt.len ∧ pkt.buf (pos + (1 + l.length)) ≠ 0
  · simp [if_pos hmore, show pkt.beyond _ 1 = false from Pkt.beyond_eq_false hmore.1]
  · simp only [if_neg hmore]

theorem decodeNameLoop_jump {target : Nat} (hfit : pos + 1 < pkt.len)
    (hptr : 192 ≤ (pkt.buf pos).toNat)
    (htarget : target = (pkt.buf pos).toNat % 64 * 256 + (pkt.buf (pos + 1)).toNat)
    (hmin : 12 ≤ target) (htgt : target < pkt.len) (fuel space njmp : Nat) (name : Bytes)
    (offset : Nat) (past : Bool) :
    decodeNameLoop pkt nlen (fuel + 1) ⟨pos, space, njmp, name, offset, past⟩ =
      if njmp > DNS_MAX_JMP then ⟨.error .emaxjmp, offset, past⟩
      else
        decodeNameLoop pkt nlen fuel
          ⟨target, space, njmp + 1, name, if njmp = 0 then offset + 2 else offset, past⟩ := by
  have hend : ¬ pos + 1 = pkt.len := by omega
  have hread1 : pkt.beyond pos 1 = false := Pkt.beyond_eq_false (by omega)
  have hread2 : pkt.beyond (pos + 1) 1 = false := Pkt.beyond_eq_false (by omega)
  have hmin' : ¬ target < 12 := by omega
  have htgt' : ¬ target > pkt.len := by omega
  rw [decodeNameLoop, nameStep, if_pos (by dsimp only; omega)]
  simp only [hptr, hend, ← htarget, hmin', htgt', hread1, hread2, Bool.or_false, if_true, if_false]
  split_ifs <;> rfl

variable (h : Wire pkt pos text jumps stop)
include h

/-- Decoding a name: its text, or too many jumps. In both cases the offset is at the end
of the name. -/
theorem decodeNameLoop_wire : ∀ (fuel space njmp : Nat) (name : Bytes) (offset : Nat) (past : Bool),
      stepsLeft pkt pos njmp ≤ fuel → njmp ≤ 17 → text.length < space →
      decodeNameLoop pkt nlen fuel ⟨pos, space, njmp, name, offset, past⟩ =
        ⟨if njmp + jumps ≤ 17 then .ok (name ++ text, nlen - (space - text.length - 1))
          else .error .emaxjmp,
          if njmp = 0 then offset + (stop - pos) else offset, past⟩ := by
  induction h with
  | @root pos hpos hzero =>
    intro fuel space njmp name offset past hfuel hnjmp hspace
    cases fuel with
    | zero => exact absurd hfuel (by unfold stepsLeft; omega)
    | succ fuel =>
      rw [decodeNameLoop_root hpos hzero hspace]
      simp [hnjmp]
  | @label pos _ stop l text hne hshort hfit hlen hread hrest ih =>
    intro fuel space njmp name offset past hfuel hnjmp hspace
    have hfwd : stepsLeft pkt (pos + 1 + l.length) njmp < stepsLeft pkt pos njmp :=
      stepsLeft_forward pkt (by omega) (by omega) _
    have hstop := hrest.lt_stop
    obtain ⟨hnext, hnextzero⟩ := hrest.first
    rw [length_append] at hspace
    cases fuel with
    | zero => exact absurd hfuel (by unfold stepsLeft; omega)
    | succ fuel =>
      have hoffset : (if njmp = 0 then
            (if njmp = 0 then offset + (1 + l.length) else offset) + (stop - (pos + 1 + l.length))
          else (if njmp = 0 then offset + (1 + l.length) else offset)) =
          if njmp = 0 then offset + (stop - pos) else offset := by
        by_cases hfirst : njmp = 0
        · simp only [if_pos hfirst]
          omega
        · simp only [if_neg hfirst]
      rw [decodeNameLoop_label hne hshort hfit hlen hread (by omega)]
      -- a dot is written unless the name ends here
      unfold Pkt.joint at hspace ⊢
      by_cases hzero : pkt.buf (pos + 1 + l.length) = 0
      · obtain rfl := hnextzero hzero
        rw [if_pos hzero] at hspace ⊢
        rw [if_neg (fun hmore => hmore.2 hzero), ih _ _ _ _ _ _ (by omega) hnjmp
          (by show 0 < space - l.length; omega), hoffset]
        simp
      · rw [if_neg hzero, length_cons] at hspace
        rw [if_neg hzero, if_pos ⟨hnext, hzero⟩, ih _ _ _ _ _ _ (by omega) hnjmp (by omega),
          hoffset, length_append]
        have hleft : space - l.length - 1 - text.length - 1 =
            space - (l.length + (text.length + 1)) - 1 := by omega
        simp [hleft]
  | @jump pos target jumps _ _ hfit hptr htarget hmin hrest ih =>
    intro fuel space njmp name offset past hfuel hnjmp hspace
    cases fuel with
    | zero => exact absurd hfuel (by unfold stepsLeft; omega)
    | succ fuel =>
      have hmax : DNS_MAX_JMP = 16 := rfl
      rw [decodeNameLoop_jump hfit hptr htarget hmin hrest.first.1]
      by_cases hlimit : njmp > DNS_MAX_JMP
      · rw [if_pos hlimit, if_neg (by omega), if_neg (by omega)]
      · have hback : stepsLeft pkt target (njmp + 1) < stepsLeft pkt pos njmp :=
          stepsLeft_jump pkt (by omega) hlimit _
        rw [if_neg hlimit, ih _ _ _ _ _ _ (by omega) (by omega) hspace]
        have hsum : njmp + 1 + jumps = njmp + (jumps + 1) := by omega
        simp [hsum]

theorem decodeName_wire (hlen : text.length < nlen) : decodeName pkt pos nlen =
      ⟨if jumps ≤ 17 then .ok (text, text.length + 1) else .error .emaxjmp, stop, false⟩ := by
  have hstop := h.lt_stop
  have hfuel : stepsLeft pkt pos 0 ≤ 19 * (pkt.len + 1) := by
    unfold stepsLeft
    omega
  have hcount : nlen - (nlen - text.length - 1) = text.length + 1 := by omega
  have hend : pos + (stop - pos) = stop := by omega
  unfold decodeName NameCursor.start
  rw [decodeNameLoop_wire h _ _ _ _ _ _ hfuel zero_le hlen, hcount, zero_add, hend]
  rfl

theorem Wire.unique : ∀ {text' : Bytes} {jumps' stop' : Nat}, Wire pkt pos text' jumps' stop' →
      text = text' ∧ jumps = jumps' ∧ stop = stop' := by
  have hmax : DNS_LABEL_MAXSTR = 63 := rfl
  have hbyte : ∀ {pos : Nat} {l : Bytes}, l.length ≤ DNS_LABEL_MAXSTR →
      pkt.buf pos = UInt8.ofNat l.length → (pkt.buf pos).toNat = l.length := by
    intro pos l hshort hlen
    rw [hlen]
    exact UInt8.toNat_ofNat_of_lt' (show l.length < 256 by omega)
  induction h with
  | root _ hzero =>
    intro text' jumps' stop' h'
    cases h' with
    | root _ _ => exact ⟨rfl, rfl, rfl⟩
    | label hne hshort _ hlen _ _ =>
      have hlen' := hbyte hshort hlen
      rw [hzero] at hlen'
      exact absurd (length_eq_zero_iff.1 hlen'.symm) hne
    | jump _ hptr _ _ _ =>
      rw [hzero] at hptr
      exact absurd hptr (by decide)
  | @label pos _ _ l _ hne hshort hfit hlen hread hrest ih =>
    intro text' jumps' stop' h'
    have hbyte1 := hbyte hshort hlen
    cases h' with
    | root _ hzero =>
      rw [hzero] at hbyte1
      exact absurd (length_eq_zero_iff.1 hbyte1.symm) hne
    | @label _ _ _ l' _ _ hshort' _ hlen' hread' hrest' =>
      have hsame : l.length = l'.length := by rw [← hbyte1, hbyte hshort' hlen']
      obtain rfl : l = l' := by rw [← hread, ← hread', hsame]
      obtain ⟨rfl, rfl, rfl⟩ := ih hrest'
      exact ⟨rfl, rfl, rfl⟩
    | jump _ hptr _ _ _ => omega
  | jump hfit hptr htarget _ hrest ih =>
    intro text' jumps' stop' h'
    cases h' with
    | root _ hzero =>
      rw [hzero] at hptr
      exact absurd hptr (by decide)
    | label _ hshort' _ hlen' _ _ =>
      have hlen := hbyte hshort' hlen'
      omega
    | jump _ _ htarget' _ hrest' =>
      obtain rfl := htarget.trans htarget'.symm
      obtain ⟨rfl, rfl, rfl⟩ := ih hrest'
      exact ⟨rfl, rfl, rfl⟩

end CDbK8s.Dns
