import CDbK8s.Resolv.Receive

/-!
# Messages in a datagram and on a connection

On a TCP connection every message has its length in front, in two bytes.
-/

namespace CDbK8s.Resolv

open Base Dns Lib.ByteMem List

variable {s : DnsSock}

/-! ## Frames -/

/-- A message with its length in front. -/
def frame (m : Bytes) : Bytes := beBytes 2 m.length ++ m

@[simp] theorem length_frame (m : Bytes) : (frame m).length = m.length + 2 := by
  simp [frame, add_comm]

/-- The first two bytes, where they are there, give the length `n`. -/
def Announces (n : Nat) (bs : Bytes) : Prop := 2 ≤ bs.length → ofBe (bs.take 2) = n

theorem announces_frame {m : Bytes} (h : m.length < 2 ^ 16) (bs : Bytes) :
    Announces m.length (frame m ++ bs) := by
  intro _
  have htake : (frame m ++ bs).take 2 = beBytes 2 m.length := by
    exact take_left' (length_beBytes 2 _)
  rw [htake, ofBe_beBytes]
  exact Nat.mod_eq_of_lt h

theorem Announces.left {n : Nat} {bs cs : Bytes} (h : Announces n (bs ++ cs)) : Announces n bs := by
  intro hlen
  rw [← h (by rw [length_append]; omega), take_append_of_le_length hlen]

/-- A socket that has received the first bytes `bs` of a stream whose first message has `n` bytes,
and did not flush them. -/
structure Got (s : DnsSock) (n : Nat) (bs : Bytes) : Prop where
  tcp : s.isTcp = true
  held : Holds s.rxBuf 0 bs
  off : s.rxOff = bs.length
  len : s.rxLen = if bs.length < 2 then 0 else n

theorem got_nil (htcp : s.isTcp = true) (hoff : s.rxOff = 0) (hlen : s.rxLen = 0) (n : Nat) :
    Got s n [] :=
  ⟨htcp, rfl, hoff, hlen⟩

section
variable {s : DnsSock} {n : Nat} {bs cs : Bytes}

theorem Got.filled_held (h : Got s n bs) : Holds (s.filled cs).rxBuf 0 (bs ++ cs) := by
  show Holds (writeBytes s.rxBuf s.rxOff cs) 0 (bs ++ cs)
  rw [holds_append, zero_add, h.off]
  exact ⟨holds_congr h.held (agreeOn_writeBytes _ _ _ (.inr (by omega))), holds_writeBytes _ _ _⟩

theorem framing_eq (hheld : Holds s.rxBuf 0 bs) (hann : Announces n bs) (hlen : 2 ≤ bs.length) :
    s.framing = n := by
  have hread : readBytes s.rxBuf 0 2 = bs.take 2 := by
    have hcut : bs = bs.take 2 ++ bs.drop 2 := (take_append_drop 2 bs).symm
    rw [hcut, holds_append] at hheld
    have htake := hheld.1
    unfold Holds at htake
    rwa [length_take, Nat.min_eq_left hlen] at htake
  rw [DnsSock.framing, hread]
  exact hann hlen

theorem rcvDnspkt_data (htcp : s.isTcp = true) (hcs : cs ≠ [])
    (hfit : s.rxOff + cs.length ≤ DNS_PKTSIZE) :
    rcvDnspkt s (.data cs) = if s.rxLen = 0 ∧ s.rxOff + cs.length ≥ 2 then
        if (s.filled cs).framing + 2 > DNS_PKTSIZE then
          (DNS_ERR, { s.filled cs with rxLen := (s.filled cs).framing })
        else rcvEnd { s.filled cs with rxLen := (s.filled cs).framing }
      else rcvEnd (s.filled cs) := by
  have htake : cs.take (DNS_PKTSIZE - s.rxOff) = cs := take_of_length_le (by omega)
  have htcp' : (s.filled cs).isTcp = true := htcp
  unfold rcvDnspkt
  simp only [htake]
  rw [if_neg hcs, htcp']
  rfl

/-- The next bytes of a stream. The message is complete when its bytes are there. -/
theorem rcvDnspkt_got (h : Got s n bs) (hcs : cs ≠ []) (hfit : bs.length + cs.length ≤ DNS_PKTSIZE)
    (hann : Announces n (bs ++ cs)) (hsmall : 2 ≤ (bs ++ cs).length → n + 2 ≤ DNS_PKTSIZE) :
    (rcvDnspkt s (.data cs)).1 = (if n + 2 ≤ (bs ++ cs).length then 0 else DNS_EAGAIN) ∧
      Got (rcvDnspkt s (.data cs)).2 n (bs ++ cs) := by
  have hheld : Holds (s.filled cs).rxBuf 0 (bs ++ cs) := h.filled_held
  have hoff : (s.filled cs).rxOff = (bs ++ cs).length := by
    rw [length_append, ← h.off]
    rfl
  have hend : ∀ s', s'.isTcp = true → Holds s'.rxBuf 0 (bs ++ cs) → s'.rxOff = (bs ++ cs).length →
      s'.rxLen = (if (bs ++ cs).length < 2 then 0 else n) →
      (rcvEnd s').1 = (if n + 2 ≤ (bs ++ cs).length then 0 else DNS_EAGAIN) ∧
        Got (rcvEnd s').2 n (bs ++ cs) := by
    intro s' htcp hheld hoff hlen
    have hgot : Got s' n (bs ++ cs) := ⟨htcp, hheld, hoff, hlen⟩
    have hiff : s'.rxOff ≥ 2 + s'.rxLen ↔ n + 2 ≤ (bs ++ cs).length := by
      rw [hlen]
      split <;> omega
    unfold rcvEnd
    by_cases hdone : n + 2 ≤ (bs ++ cs).length
    · rw [if_pos (hiff.2 hdone), if_pos hdone]
      exact ⟨rfl, hgot⟩
    · rw [if_neg (fun hd => hdone (hiff.1 hd)), if_neg hdone]
      exact ⟨rfl, hgot⟩
  rw [rcvDnspkt_data h.tcp hcs (by rw [h.off]; exact hfit)]
  have hlen := h.len
  split
  · rename_i hfirst
    rw [h.off, ← length_append] at hfirst
    have hframing := framing_eq hheld hann hfirst.2
    rw [if_neg (by rw [hframing]; omega)]
    refine hend _ h.tcp hheld hoff ?_
    rw [if_neg (by omega)]
    exact hframing
  · rename_i hlater
    rw [h.off, ← length_append] at hlater
    refine hend _ h.tcp hheld hoff ?_
    show s.rxLen = _
    -- the prefix was read before, or is not there yet
    by_cases hbs : bs.length < 2
    · rw [if_pos hbs] at hlen
      rw [hlen, if_pos (by omega)]
    · rw [if_neg hbs] at hlen
      rw [hlen, if_neg (by rw [length_append]; omega)]

theorem rcvDnspkt_big (h : Got s n bs) (hcs : cs ≠ []) (hfit : bs.length + cs.length ≤ DNS_PKTSIZE)
    (hann : Announces n (bs ++ cs)) (hbig : DNS_PKTSIZE < n + 2) (hbs : bs.length < 2)
    (hknown : 2 ≤ (bs ++ cs).length) : (rcvDnspkt s (.data cs)).1 = DNS_ERR := by
  have hlen := h.len
  rw [if_pos hbs] at hlen
  rw [rcvDnspkt_data h.tcp hcs (by rw [h.off]; exact hfit),
    if_pos ⟨hlen, by rw [h.off, ← length_append]; exact hknown⟩,
    if_pos (by rw [framing_eq h.filled_held hann hknown]; omega)]

end

/-! ## Two transports -/

/-- `rcv_dnspkt` on one segment after the other: the socket, if the last call completes the message
and the others wait for more. -/
def received (s : DnsSock) : List Bytes → Option DnsSock
  | [] => none
  | [seg] =>
    let r := rcvDnspkt s (.data seg)
    if r.1 = 0 then some r.2 else none
  | seg :: seg' :: segs =>
    let r := rcvDnspkt s (.data seg)
    if r.1 = DNS_EAGAIN then received r.2 (seg' :: segs) else none

/-- A message that fits the buffer is received whole, however it is cut. -/
theorem received_got {m : Bytes} (hm : m.length + 2 ≤ DNS_PKTSIZE) (segs : List Bytes) :
    ∀ {s : DnsSock} {bs : Bytes}, Got s m.length bs → (∀ seg ∈ segs, seg ≠ []) → segs ≠ [] →
      bs ++ segs.flatten = frame m →
      ∃ s', received s segs = some s' ∧ Got s' m.length (frame m) := by
  have hann : Announces m.length (frame m) := by
    have hlt : m.length < 2 ^ 16 := by
      unfold DNS_PKTSIZE at hm
      omega
    have h := announces_frame hlt []
    rwa [append_nil] at h
  induction segs with
  | nil => exact fun _ _ h => absurd rfl h
  | cons seg segs ih =>
    intro s bs hgot hne _ hjoin
    have hseg : seg ≠ [] := hne seg mem_cons_self
    have hcut : bs ++ seg ++ segs.flatten = frame m := by
      rw [append_assoc]
      exact hjoin
    have hsum := congrArg List.length hcut
    rw [length_append, length_append, length_frame] at hsum
    have hpart : Announces m.length (bs ++ seg) := (hcut ▸ hann).left
    obtain ⟨hrc, hgot'⟩ := rcvDnspkt_got hgot hseg (by omega) hpart fun _ => hm
    cases segs with
    | nil =>
      rw [flatten_nil, append_nil] at hcut
      rw [hcut] at hgot' hrc
      rw [length_frame, if_pos le_rfl] at hrc
      exact ⟨_, by rw [received]; simp only [hrc, if_true], hgot'⟩
    | cons seg' segs =>
      have hseg' : 0 < seg'.length := length_pos_iff.2 (hne _ (.tail _ mem_cons_self))
      rw [flatten_cons, length_append] at hsum
      rw [if_neg (by rw [length_append]; omega)] at hrc
      obtain ⟨s', hrest, hgot''⟩ := ih hgot'
        (fun seg hmem => hne seg (.tail _ hmem)) (cons_ne_nil _ _) hcut
      exact ⟨s', by rw [received]; simp only [hrc]; exact hrest, hgot''⟩

/-- The decoders are given exactly the bytes `m`. -/
def HandsOver (s : DnsSock) (m : Bytes) : Prop :=
  s.payload.len = m.length ∧ Holds s.payload.buf 0 m

/-- An empty socket of the given kind. -/
def DnsSock.fresh (s : DnsSock) (isTcp : Bool) : DnsSock :=
  { s with isTcp := isTcp, rxOff := 0, rxLen := 0 }

section
variable {C : Type} (ov : Overlay)

/-- The nameserver with a packet in the buffer of `s`. -/
def Ns.over (ns : Ns C) (s : DnsSock) : Ns C := { ns with sock := s, useTcp := s.isTcp }

/-- The message `m` in a datagram, and on a connection in the segments `segs`: the bytes that are
decoded are those of `m` in both cases, and the outcome is the same. A length that is too short for
a header is rejected. -/
def TransportsAgree (ns : Ns C) (m : Bytes) (segs : List Bytes) : Prop :=
  let udp := rcvDnspkt (ns.sock.fresh false) (.data m)
  ∃ tcp, received (ns.sock.fresh true) segs = some tcp ∧ if DNS_HDR_LEN ≤ m.length then
      udp.1 = 0 ∧ HandsOver udp.2 m ∧ HandsOver tcp m ∧
        (chkDnspkt ov (ns.over udp.2)).1 = (chkDnspkt ov (ns.over tcp)).1 ∧
        (chkDnspkt ov (ns.over udp.2)).2.msg = (chkDnspkt ov (ns.over tcp)).2.msg
    else (chkDnspkt ov (ns.over tcp)).1 = DNS_EBADHDR

theorem Got.payload_len {n : Nat} {bs : Bytes} (h : Got s n bs) (hbs : 2 ≤ bs.length) :
    s.payload.len = sizeSub n 2 := by
  rw [DnsSock.payload, if_pos h.tcp]
  rw [h.len, if_neg (by omega)]

theorem sizeSub_two_lt_hdr_iff {n : Nat} (h : n < 2 ^ 16) :
    sizeSub n 2 < DNS_HDR_LEN ↔ 2 ≤ n ∧ n < 14 := by
  unfold sizeSub DNS_HDR_LEN
  omega

theorem sizeSub_two_ne (n : Nat) : sizeSub n 2 ≠ n := by
  unfold sizeSub
  omega

/-- The two transports never agree on a message with a header: on a connection its last two bytes
are cut off. A length that is too short is rejected unless the subtraction wraps around. -/
theorem transports_agree_iff (ns : Ns C) (m : Bytes) (segs : List Bytes)
    (hm : m.length + 2 ≤ DNS_PKTSIZE) (hne : ∀ seg ∈ segs, seg ≠ [])
    (hjoin : segs.flatten = frame m) :
    TransportsAgree ov ns m segs ↔ 2 ≤ m.length ∧ m.length < DNS_HDR_LEN := by
  have hlt : m.length < 2 ^ 16 := by
    unfold DNS_PKTSIZE at hm
    omega
  have hsegs : segs ≠ [] := by
    rintro rfl
    have hlen := congrArg List.length hjoin
    cases hlen
  obtain ⟨tcp, hrec, hgot⟩ := received_got hm _
    (got_nil (s := ns.sock.fresh true) rfl rfl rfl m.length) hne hsegs hjoin
  have hlen : tcp.payload.len = sizeSub m.length 2 := hgot.payload_len (by rw [length_frame]; omega)
  have hbad : (chkDnspkt ov (ns.over tcp)).1 = DNS_EBADHDR ↔ 2 ≤ m.length ∧ m.length < 14 := by
    rw [chkDnspkt_ebadhdr_iff, ← sizeSub_two_lt_hdr_iff hlt, ← hlen]
    rfl
  unfold TransportsAgree
  simp only [hrec, Option.some.injEq, exists_eq_left']
  by_cases hhdr : DNS_HDR_LEN ≤ m.length
  · rw [if_pos hhdr]
    refine ⟨?_, fun h => by omega⟩
    rintro ⟨-, -, hands, -⟩
    exact absurd (hlen.symm.trans hands.1) (sizeSub_two_ne _)
  · rw [if_neg hhdr]
    unfold DNS_HDR_LEN at *
    omega

end

theorem short_length_rejected :
    TransportsAgree Overlay.plain (twoQueries true).ns [1, 2, 3] [[0], [3, 1], [2, 3]] :=
  (transports_agree_iff _ (twoQueries true).ns [1, 2, 3] [[0], [3, 1], [2, 3]]
    (by decide) (by decide) (by decide)).2 (by decide)

def refusal : Bytes := [0, 7, 0x81, 0x85, 0, 0, 0, 0, 0, 0, 0, 0]

/-- The refusal of a query is understood in a datagram, and is no header on a connection. -/
theorem refusal_differs : (chkDnspkt Overlay.plain ((twoQueries true).ns.over
        (rcvDnspkt ((twoQueries true).ns.sock.fresh false) (.data refusal)).2)).1 = 5 ∧
      (received ((twoQueries true).ns.sock.fresh true) [frame refusal]).map
        (fun tcp => (chkDnspkt Overlay.plain ((twoQueries true).ns.over tcp)).1) =
          some DNS_EBADHDR ∧
      ¬ TransportsAgree Overlay.plain (twoQueries true).ns refusal [frame refusal] := by
  have hudp : (chkDnspkt Overlay.plain ((twoQueries true).ns.over
      (rcvDnspkt ((twoQueries true).ns.sock.fresh false) (.data refusal)).2)).1 = 5 := by
    decide +kernel
  have htcp : (received ((twoQueries true).ns.sock.fresh true) [frame refusal]).map
      (fun tcp => (chkDnspkt Overlay.plain ((twoQueries true).ns.over tcp)).1) =
        some DNS_EBADHDR := by
    decide +kernel
  refine ⟨hudp, htcp, ?_⟩
  rintro ⟨tcp, hrec, h⟩
  rw [if_pos (by decide)] at h
  have hsame := h.2.2.2.1
  rw [hrec, Option.map_some, Option.some.injEq] at htcp
  rw [hudp, htcp] at hsame
  cases hsame

end CDbK8s.Resolv
