import CDbK8s.Resolv.Transport

/-!
# Two messages on one connection

Both queries may be outstanding on one TCP connection, and their responses come one behind the
other, cut in any way.

A round that completes a message empties the buffer, so that what was read behind the message is
lost.
-/

namespace CDbK8s.Resolv

open Base Dns Lib.ByteMem Lib.Runs List

variable {s : DnsSock} {segs : List Bytes}

/-- The message received so far. -/
def DnsSock.message (s : DnsSock) : Bytes := readBytes s.rxBuf s.pre s.rxLen

section
variable {C : Type} (api : CacheApi C) (ov : Overlay)

/-- The message that a round of the loop passes to `chk_dnspkt`, if there is one. -/
def Loop.passes (l : Loop C) : Event → List Bytes
  | .ready io =>
    let l' := l.sending ov io
    let r := rcvDnspkt l'.ns.sock io.read
    if l.running ∧ l'.pfd.pollin ∧ ¬ l'.pfd.pollout ∧ r.1 = 0 then [r.2.message] else []
  | .idle _ _ _ => []

/-- The loop waits for an answer. -/
structure Listening (l : Loop C) : Prop where
  active : l.ns.active ≠ 0
  broke : l.broke = false
  pollin : l.pfd.pollin = true
  pollout : l.pfd.pollout = false

/-- A round in which `read` returns the bytes `seg`. -/
def reading (seg : Bytes) : Event := .ready ⟨false, .eagain, .eagain, .data seg⟩

/-- The rounds in which `read` returns the segments. -/
def reads (segs : List Bytes) : List Event := segs.map reading

/-- `read` returns no more than it was asked for. -/
def ReadFits (l : Loop C) : Event → Prop
  | .ready io => ∀ bs, io.read = .data bs → l.running = true →
      l.ns.sock.rxOff + bs.length ≤ DNS_PKTSIZE
  | .idle _ _ _ => True

section
variable {l : Loop C} {n : Nat} {bs seg : Bytes}

section
variable (h : Listening l)
include h

theorem Listening.running : l.running = true := by
  simp [Loop.running, h.active, h.broke]

theorem Listening.sending (io : Io) : l.sending ov io = l :=
  if_neg fun hout => absurd hout.1 (by rw [h.pollout]; decide)

theorem Listening.receiving (io : Io) : l.receiving api ov io =
      { l with
        ns := (recvResp api ov l.ns l.pfd io.read).1,
        pfd := (recvResp api ov l.ns l.pfd io.read).2 } :=
  if_pos ⟨h.pollin, by rw [h.pollout]; decide⟩

theorem Listening.step (io : Io) : l.step api ov (.ready io) =
      { l with
        rc := 1, ns := (recvResp api ov l.ns l.pfd io.read).1,
        pfd := (recvResp api ov l.ns l.pfd io.read).2 } := by
  have h' : Listening { l with rc := 1 } := ⟨h.active, h.broke, h.pollin, h.pollout⟩
  unfold Loop.step
  rw [if_pos h.running]
  simp only [h'.sending ov io, h'.receiving api ov io]

theorem Listening.passes (io : Io) : l.passes ov (.ready io) =
      if (rcvDnspkt l.ns.sock io.read).1 = 0 then [(rcvDnspkt l.ns.sock io.read).2.message]
      else [] := by
  simp [Loop.passes, h.sending ov io, h.running, h.pollin, h.pollout]

end

theorem outputs_left (h : l.running = false) (es : List Event) :
    outputs (Loop.step api ov) (Loop.passes ov) l es = [] := by
  refine outputs_stopped (step_stopped api ov h) ?_ es
  intro e
  cases e with
  | ready _ => simp [Loop.passes, h]
  | idle _ _ _ => rfl

theorem running_of_active (h : l.ns.active = 0) : l.running = false := by
  simp [Loop.running, h]

theorem Listening.waits (h : Listening l) (hgot : Got l.ns.sock n bs) (hne : seg ≠ [])
    (hfit : bs.length + seg.length ≤ DNS_PKTSIZE)
    (hann : Announces n (bs ++ seg)) (hsmall : 2 ≤ (bs ++ seg).length → n + 2 ≤ DNS_PKTSIZE)
    (hpart : (bs ++ seg).length < n + 2) :
    l.passes ov (reading seg) = [] ∧ Listening (l.step api ov (reading seg)) ∧
      Got (l.step api ov (reading seg)).ns.sock n (bs ++ seg) ∧
      (l.step api ov (reading seg)).ns.active = l.ns.active := by
  obtain ⟨hrc, hgot'⟩ := rcvDnspkt_got hgot hne hfit hann hsmall
  rw [if_neg (by omega)] at hrc
  rw [reading, h.passes, h.step, recvResp_again api ov _ hrc, hrc]
  exact ⟨rfl, ⟨h.active, h.broke, h.pollin, h.pollout⟩, hgot', rfl⟩

/-- What is left of the loop by a message that did not fail the connection. -/
structure Emptied (l l' : Loop C) : Prop where
  listening : l'.ns.active ≠ 0 → Listening l'
  tcp : l'.ns.sock.isTcp = true
  off : l'.ns.sock.rxOff = 0
  len : l'.ns.sock.rxLen = 0
  active : l'.ns.active = l.ns.active ∨ l'.ns.active = l.ns.active - 1

theorem Emptied.got {l' : Loop C} (h : Emptied l l') (n : Nat) : Got l'.ns.sock n [] :=
  got_nil h.tcp h.off h.len n

theorem chkDnspkt_sock (ns : Ns C) : (chkDnspkt ov ns).2.sock = ns.sock ∧
      ((chkDnspkt ov ns).2.active = ns.active ∨ (chkDnspkt ov ns).2.active = ns.active - 1) := by
  have hspec := (chkDnspkt_spec ov ns).2
  cases hto : answersTo ns with
  | none =>
    rw [hto] at hspec
    rw [hspec]
    exact ⟨rfl, .inl rfl⟩
  | some _ =>
    rw [hto] at hspec
    obtain ⟨msg, rc, heq⟩ := hspec
    rw [heq]
    constructor
    · simp [Ns.setRc, answered]
    · right
      simp [Ns.setRc, answered]

theorem Got.message (hgot : Got s n bs) (hlen : n + 2 ≤ bs.length) :
    s.message = (bs.drop 2).take n := by
  have hcut : bs = bs.take 2 ++ ((bs.drop 2).take n ++ (bs.drop 2).drop n) := by
    simp
  have hheld := hgot.held
  rw [hcut, holds_append, holds_append] at hheld
  have hmid := hheld.2.1
  have htwo : (bs.take 2).length = 2 := by
    rw [length_take]
    omega
  have hn : ((bs.drop 2).take n).length = n := by
    simp
    omega
  unfold Holds at hmid
  rw [htwo, hn] at hmid
  rw [DnsSock.message, DnsSock.pre, if_pos hgot.tcp, hgot.len, if_neg (by omega)]
  exact hmid

/-- A round that completes a message passes it on. It fails the connection if what the decoders
are given has no header; otherwise the buffer is emptied, with all that is in it. -/
theorem Listening.completes (h : Listening l) (hgot : Got l.ns.sock n bs)
    (hne : seg ≠ []) (hfit : bs.length + seg.length ≤ DNS_PKTSIZE)
    (hann : Announces n (bs ++ seg)) (hsmall : n + 2 ≤ DNS_PKTSIZE)
    (hdone : n + 2 ≤ (bs ++ seg).length) :
    l.passes ov (reading seg) = [((bs ++ seg).drop 2).take n] ∧
      if 2 ≤ n ∧ n < 14 then (l.step api ov (reading seg)).ns.active = 0
      else Emptied l (l.step api ov (reading seg)) := by
  obtain ⟨hrc, hgot'⟩ := rcvDnspkt_got hgot hne hfit hann fun _ => hsmall
  rw [if_pos hdone] at hrc
  have hlt : n < 2 ^ 16 := by
    unfold DNS_PKTSIZE at hsmall
    omega
  have hlen : (l.ns.read (.data seg)).sock.payload.len = sizeSub n 2 := hgot'.payload_len (by omega)
  rw [reading, h.passes, h.step, if_pos hrc]
  refine ⟨by rw [hgot'.message hdone], ?_⟩
  split
  · rename_i hshort
    rw [← sizeSub_two_lt_hdr_iff hlt, ← hlen] at hshort
    rw [recvResp_short api ov _ hrc hshort hgot'.tcp]
  · rename_i hlong
    rw [← sizeSub_two_lt_hdr_iff hlt, ← hlen] at hlong
    obtain ⟨ns', hgains, heq⟩ := recvResp_packet api ov _ hrc fun hs => absurd hs hlong
    obtain ⟨hsock, hactive⟩ := chkDnspkt_sock ov _
    rw [heq]
    refine ⟨fun hne => ⟨hne, h.broke, h.pollin, h.pollout⟩, ?_, rfl, rfl, ?_⟩
    · rw [hgains.sock, hsock]
      exact hgot'.tcp
    · rw [hgains.active]
      exact hactive

end

/-! ### Runs -/

section
variable {l : Loop C} {n : Nat}

theorem reads_append (segs segs' : List Bytes) : reads (segs ++ segs') = reads segs ++ reads segs' :=
  map_append

/-- The messages that a run over the segments passes on. -/
abbrev passed (l : Loop C) (segs : List Bytes) : List Bytes :=
  outputs (Loop.step api ov) (Loop.passes ov) l (reads segs)

/-- `read` returned the segments in a run. -/
abbrev Readable (l : Loop C) (segs : List Bytes) : Prop :=
  EveryStep (Loop.step api ov) ReadFits l (reads segs)

theorem passed_append (segs segs' : List Bytes) : passed api ov l (segs ++ segs') =
      passed api ov l segs ++ passed api ov (l.run api ov (reads segs)) segs' := by
  show outputs _ _ l (reads (segs ++ segs')) = _
  rw [reads_append, outputs_append]
  rfl

theorem readable_append (segs segs' : List Bytes) : Readable api ov l (segs ++ segs') ↔
      Readable api ov l segs ∧ Readable api ov (l.run api ov (reads segs)) segs' := by
  show EveryStep _ _ l (reads (segs ++ segs')) ↔ _
  rw [reads_append, everyStep_append]
  rfl

theorem run_append (segs segs' : List Bytes) :
    l.run api ov (reads (segs ++ segs')) = (l.run api ov (reads segs)).run api ov (reads segs') := by
  rw [reads_append]
  exact foldl_append

theorem Readable.head {seg : Bytes} (hread : Readable api ov l (seg :: segs)) (h : Listening l) :
    l.ns.sock.rxOff + seg.length ≤ DNS_PKTSIZE :=
  hread.1 seg rfl h.running

theorem run_waits (segs : List Bytes) :
    ∀ {l : Loop C} {bs : Bytes}, Listening l → Got l.ns.sock n bs → (∀ seg ∈ segs, seg ≠ []) →
      Readable api ov l segs → Announces n (bs ++ segs.flatten) →
      (2 ≤ (bs ++ segs.flatten).length → n + 2 ≤ DNS_PKTSIZE) →
      (bs ++ segs.flatten).length < n + 2 →
      passed api ov l segs = [] ∧ Listening (l.run api ov (reads segs)) ∧
        Got (l.run api ov (reads segs)).ns.sock n (bs ++ segs.flatten) ∧
        (l.run api ov (reads segs)).ns.active = l.ns.active := by
  induction segs with
  | nil =>
    intro l bs h hgot _ _ _ _ _
    rw [flatten_nil, append_nil]
    exact ⟨rfl, h, hgot, rfl⟩
  | cons seg segs ih =>
    intro l bs h hgot hne hread hann hsmall hpart
    have hcut : bs ++ (seg :: segs).flatten = bs ++ seg ++ segs.flatten := by
      simp
    rw [hcut] at hann hsmall hpart ⊢
    have hfit := hread.head api ov h
    rw [hgot.off] at hfit
    have hle : (bs ++ seg).length ≤ (bs ++ seg ++ segs.flatten).length := by
      simp only [length_append]
      omega
    obtain ⟨hout, h', hgot', hactive⟩ := h.waits api ov hgot (hne seg mem_cons_self) hfit
      hann.left (fun h2 => hsmall (h2.trans hle)) (lt_of_le_of_lt hle hpart)
    obtain ⟨houts, hl, hgot'', hactive'⟩ := ih h' hgot'
      (fun seg hmem => hne seg (.tail _ hmem)) hread.2 hann hsmall hpart
    refine ⟨?_, hl, hgot'', hactive'.trans hactive⟩
    show l.passes ov (reading seg) ++ passed api ov (l.step api ov (reading seg)) segs = []
    rw [hout, houts]
    rfl

theorem run_big (hbig : DNS_PKTSIZE < n + 2) (segs : List Bytes) :
    ∀ {l : Loop C} {bs : Bytes}, Listening l → Got l.ns.sock n bs → bs.length < 2 →
      (∀ seg ∈ segs, seg ≠ []) → Readable api ov l segs → Announces n (bs ++ segs.flatten) →
      passed api ov l segs = [] := by
  induction segs with
  | nil => exact fun _ _ _ _ _ _ => rfl
  | cons seg segs ih =>
    intro l bs h hgot hbs hne hread hann
    have hcut : bs ++ (seg :: segs).flatten = bs ++ seg ++ segs.flatten := by
      simp
    rw [hcut] at hann
    have hfit := hread.head api ov h
    rw [hgot.off] at hfit
    have hseg : seg ≠ [] := hne seg mem_cons_self
    have hne' : ∀ seg ∈ segs, seg ≠ [] := fun seg hmem => hne seg (.tail _ hmem)
    show l.passes ov (reading seg) ++ passed api ov (l.step api ov (reading seg)) segs = []
    by_cases hknown : 2 ≤ (bs ++ seg).length
    · have hrc := rcvDnspkt_big hgot hseg hfit hann.left hbig hbs hknown
      rw [reading, h.passes, if_neg (by rw [hrc]; decide), h.step, recvResp_err api ov _ hrc]
      exact outputs_left api ov (running_of_active rfl) _
    · obtain ⟨hout, h', hgot', -⟩ := h.waits api ov hgot hseg hfit hann.left
        (fun h2 => absurd h2 hknown) (by omega)
      rw [hout, ih h' hgot' (by omega) hne' hread.2 hann]
      rfl

/-! ### What the messages cost -/

/-- The outcome of a read on a connection with at most `k` bytes in the buffer: a message that is
complete has its bytes and its length there. -/
def Paid (k : Nat) (r : Int × DnsSock) : Prop :=
  r.2.isTcp = true ∧ r.2.rxOff ≤ k ∧ (r.1 = 0 → r.2.rxLen + 2 ≤ r.2.rxOff)

theorem paid_of_ne {k : Nat} {rc : Int} (htcp : s.isTcp = true) (hoff : s.rxOff ≤ k) (hrc : rc ≠ 0) :
    Paid k (rc, s) :=
  ⟨htcp, hoff, fun h => absurd h hrc⟩

theorem paid_rcvEnd {k : Nat} (htcp : s.isTcp = true) (hoff : s.rxOff ≤ k) : Paid k (rcvEnd s) := by
  unfold rcvEnd
  split
  · rename_i hdone
    exact ⟨htcp, hoff, fun _ => (add_comm _ _).trans_le hdone⟩
  · exact paid_of_ne htcp hoff (by decide)

theorem paid_rcvDnspkt (htcp : s.isTcp = true) (seg : Bytes) :
    Paid (s.rxOff + seg.length) (rcvDnspkt s (.data seg)) := by
  have hoff : (s.filled (seg.take (DNS_PKTSIZE - s.rxOff))).rxOff ≤ s.rxOff + seg.length := by
    show s.rxOff + (seg.take _).length ≤ _
    rw [length_take]
    omega
  have htcp' : (s.filled (seg.take (DNS_PKTSIZE - s.rxOff))).isTcp = true := htcp
  unfold rcvDnspkt
  simp only
  split
  · exact paid_of_ne htcp (Nat.le_add_right _ _) (by decide)
  · split
    · rename_i hudp
      rw [htcp'] at hudp
      cases hudp
    · split
      · split
        · exact paid_of_ne htcp hoff (by decide)
        · exact paid_rcvEnd htcp hoff
      · exact paid_rcvEnd htcp' hoff

theorem recvResp_done {ns : Ns C} {r : ReadRes} (pfd : Pollfd)
    (h : (rcvDnspkt ns.sock r).1 = 0) (htcp : (ns.read r).sock.isTcp = true) :
    (recvResp api ov ns pfd r).1.sock = dnsSockFlush (ns.read r).sock ∧
      ((recvResp api ov ns pfd r).1.active = 0 ∨ (recvResp api ov ns pfd r).2 = pfd) := by
  by_cases hshort : (ns.read r).sock.payload.len < DNS_HDR_LEN
  · rw [recvResp_short api ov pfd h hshort htcp]
    exact ⟨rfl, .inl rfl⟩
  · obtain ⟨ns', hgains, heq⟩ := recvResp_packet api ov pfd h fun hs => absurd hs hshort
    rw [heq]
    refine ⟨?_, .inr rfl⟩
    rw [hgains.sock, (chkDnspkt_sock ov _).1]

theorem Listening.budget (h : Listening l) (htcp : l.ns.sock.isTcp = true) (seg : Bytes) :
    ((l.passes ov (reading seg)).map fun m => m.length + 2).sum +
        (l.step api ov (reading seg)).ns.sock.rxOff ≤ l.ns.sock.rxOff + seg.length ∧
      (l.step api ov (reading seg)).ns.sock.isTcp = true ∧
      (Listening (l.step api ov (reading seg)) ∨ (l.step api ov (reading seg)).running = false) := by
  obtain ⟨htcp', hoff, hlen⟩ := paid_rcvDnspkt htcp seg
  have hgoes : ∀ l' : Loop C, l'.broke = l.broke → (l'.ns.active = 0 ∨ l'.pfd = l.pfd) →
      Listening l' ∨ l'.running = false := by
    intro l' hbroke hl'
    by_cases hactive : l'.ns.active = 0
    · exact .inr (running_of_active hactive)
    · have hpfd := hl'.resolve_left hactive
      exact .inl ⟨hactive, hbroke.trans h.broke, by rw [hpfd]; exact h.pollin,
        by rw [hpfd]; exact h.pollout⟩
  rw [reading, h.passes, h.step]
  rcases rcvDnspkt_rc _ _ with hrc | hrc | hrc
  · obtain ⟨hsock, hnext⟩ := recvResp_done api ov _ hrc htcp'
    rw [if_pos hrc]
    refine ⟨?_, ?_, hgoes _ rfl hnext⟩
    · simp only [hsock, map_cons, DnsSock.message, length_readBytes]
      show _ + 0 + 0 ≤ _
      omega
    · rw [hsock]
      exact htcp'
  · rw [if_neg (by rw [hrc]; decide), recvResp_again api ov _ hrc]
    exact ⟨(zero_add _).trans_le hoff, htcp', hgoes _ rfl (.inr rfl)⟩
  · rw [if_neg (by rw [hrc]; decide), recvResp_err api ov _ hrc]
    exact ⟨zero_le, htcp', hgoes _ rfl (.inl rfl)⟩

theorem passed_budget (segs : List Bytes) :
    ∀ {l : Loop C}, Listening l ∨ l.running = false → l.ns.sock.isTcp = true →
      ((passed api ov l segs).map fun m => m.length + 2).sum ≤
        l.ns.sock.rxOff + segs.flatten.length := by
  induction segs with
  | nil => exact fun _ _ => zero_le
  | cons seg segs ih =>
    intro l hl htcp
    rcases hl with h | hstop
    · obtain ⟨hpaid, htcp', hnext⟩ := h.budget api ov htcp seg
      have hrest := ih hnext htcp'
      show (List.map _ (l.passes ov (reading seg) ++
        passed api ov (l.step api ov (reading seg)) segs)).sum ≤ _
      rw [map_append, sum_append, flatten_cons, length_append]
      omega
    · rw [passed, outputs_left api ov hstop]
      exact zero_le

theorem readable_of_short (segs : List Bytes) :
    ∀ {l : Loop C}, Listening l ∨ l.running = false → l.ns.sock.isTcp = true →
      l.ns.sock.rxOff + segs.flatten.length ≤ DNS_PKTSIZE → Readable api ov l segs := by
  induction segs with
  | nil => exact fun _ _ _ => trivial
  | cons seg segs ih =>
    intro l hl htcp hlen
    rw [flatten_cons, length_append] at hlen
    have hfits : ReadFits l (reading seg) := by
      rintro bs ⟨⟩ -
      omega
    rcases hl with h | hstop
    · obtain ⟨hpaid, htcp', hnext⟩ := h.budget api ov htcp seg
      exact ⟨hfits, ih hnext htcp' (by omega)⟩
    · have hstep := step_stopped api ov hstop (reading seg)
      refine ⟨hfits, ?_⟩
      rw [hstep]
      exact ih (.inr hstop) htcp (by omega)

/-! ### The first message -/

theorem exists_cut {k : Nat} (hk : 0 < k) (segs : List Bytes) (h : k ≤ segs.flatten.length) :
    ∃ front seg back, segs = front ++ seg :: back ∧ front.flatten.length < k ∧
      k ≤ (front.flatten ++ seg).length := by
  induction segs generalizing k with
  | nil => exact absurd (Nat.le_zero.1 h) (Nat.ne_of_gt hk)
  | cons seg segs ih =>
    by_cases hseg : k ≤ seg.length
    · exact ⟨[], seg, segs, rfl, hk, hseg⟩
    · rw [flatten_cons, length_append] at h
      obtain ⟨front, seg', back, rfl, hlt, hle⟩ := ih (k := k - seg.length) (by omega) (by omega)
      refine ⟨seg :: front, seg', back, rfl, ?_, ?_⟩
      · rw [flatten_cons, length_append]
        omega
      · rw [flatten_cons, append_assoc, length_append]
        omega

/-- The first message of a stream is passed on by the round in which it is complete. -/
theorem passed_first {m rest : Bytes} (h : Listening l) (hgot : Got l.ns.sock m.length [])
    (hm : m.length + 2 ≤ DNS_PKTSIZE) (hne : ∀ seg ∈ segs, seg ≠ [])
    (hread : Readable api ov l segs) (hjoin : segs.flatten = frame m ++ rest) :
    ∃ front seg back l', segs = front ++ seg :: back ∧
      m.length + 2 ≤ (front.flatten ++ seg).length ∧
      l.run api ov (reads (front ++ [seg])) = l' ∧ Readable api ov l' back ∧
      passed api ov l segs = m :: passed api ov l' back ∧
      if 2 ≤ m.length ∧ m.length < 14 then l'.running = false else Emptied l l' := by
  have hlt : m.length < 2 ^ 16 := by
    unfold DNS_PKTSIZE at hm
    omega
  obtain ⟨front, seg, back, rfl, hpart, hdone⟩ := exists_cut (k := m.length + 2) (by omega) _
    (by rw [hjoin, length_append, length_frame]; omega)
  have hcut : front.flatten ++ seg ++ back.flatten = frame m ++ rest := by
    simp [← hjoin]
  have hann : Announces m.length (front.flatten ++ seg) :=
    Announces.left (hcut ▸ announces_frame hlt _)
  rw [readable_append] at hread
  obtain ⟨houts, hl, hgot', hactive⟩ := run_waits api ov _ h hgot
    (fun seg hmem => hne seg (mem_append_left _ hmem)) hread.1 hann.left (fun _ => hm) hpart
  have hfit := hread.2.head api ov hl
  rw [hgot'.off] at hfit
  have hseg : seg ≠ [] := hne seg (mem_append_right _ mem_cons_self)
  obtain ⟨hout, hnext⟩ := hl.completes api ov hgot' hseg hfit hann hm hdone
  -- what is passed on is the message: the bytes so far are a prefix of the stream
  have hmsg : ((front.flatten ++ seg).drop 2).take m.length = m := by
    have htake : (front.flatten ++ seg ++ back.flatten).take (m.length + 2) = frame m := by
      rw [hcut]
      exact take_left' (length_frame m)
    rw [take_append_of_le_length hdone] at htake
    have hdrop := congrArg (drop 2) htake
    rw [drop_take, Nat.add_sub_cancel] at hdrop
    rw [hdrop]
    exact drop_left' (length_beBytes 2 _)
  rw [nil_append, hmsg] at hout
  refine ⟨front, seg, back, _, rfl, hdone, rfl, ?_, ?_, ?_⟩
  · rw [run_append]
    exact hread.2.2
  · rw [passed_append, houts, run_append]
    show Loop.passes ov _ (reading seg) ++ _ = _
    rw [hout]
    rfl
  · rw [run_append]
    by_cases hshort : 2 ≤ m.length ∧ m.length < 14
    · rw [if_pos hshort] at hnext ⊢
      exact running_of_active hnext
    · rw [if_neg hshort] at hnext ⊢
      exact ⟨hnext.listening, hnext.tcp, hnext.off, hnext.len, hactive ▸ hnext.active⟩

theorem passed_last {m : Bytes} (h : Listening l) (hgot : Got l.ns.sock m.length [])
    (hm : m.length + 2 ≤ DNS_PKTSIZE) (hne : ∀ seg ∈ segs, seg ≠ [])
    (hread : Readable api ov l segs) (hjoin : segs.flatten = frame m) :
    passed api ov l segs = [m] ∧
      if 2 ≤ m.length ∧ m.length < 14 then (l.run api ov (reads segs)).running = false
      else Emptied l (l.run api ov (reads segs)) := by
  obtain ⟨front, seg, back, l', rfl, hdone, hrun, -, hout, hnext⟩ :=
    passed_first api ov h hgot hm hne hread (hjoin.trans (append_nil _).symm)
  -- the segment that completes the message is the last one
  have hback : back = [] := by
    have hsum := congrArg List.length hjoin
    simp only [flatten_append, flatten_cons, length_append, length_frame] at hsum
    rw [length_append] at hdone
    cases back with
    | nil => rfl
    | cons seg' back =>
      have hpos : 0 < seg'.length := length_pos_iff.2
        (hne seg' (mem_append_right _ (.tail _ mem_cons_self)))
      rw [flatten_cons, length_append] at hsum
      omega
  subst hback
  rw [hrun]
  exact ⟨hout, hnext⟩

end

/-! ## Two responses -/

/-- Both queries are outstanding on a connection, and nothing was received yet. -/
structure Waiting (l : Loop C) : Prop extends Listening l where
  both : l.ns.active = 2
  v4 : l.ns.v4Query.state = .recv
  v6 : l.ns.v6Query.state = .recv
  tcp : l.ns.sock.isTcp = true
  off : l.ns.sock.rxOff = 0
  len : l.ns.sock.rxLen = 0

/-- Two responses behind each other, cut in any way, are both passed on as they are exactly if
both fit the buffer, what the decoders see of the first has a header, and the first ends where a
segment ends. -/
theorem reassembled_iff (l : Loop C) (hl : Waiting l) (m₁ m₂ : Bytes) (h₁ : m₁.length < 2 ^ 16)
    (h₂ : m₂.length < 2 ^ 16) (segs : List Bytes) (hne : ∀ seg ∈ segs, seg ≠ [])
    (hread : Readable api ov l segs) (hjoin : segs.flatten = frame m₁ ++ frame m₂) :
    passed api ov l segs = [m₁, m₂] ↔
      (m₁.length < 2 ∨ 14 ≤ m₁.length) ∧ m₁.length + 2 ≤ DNS_PKTSIZE ∧ m₂.length + 2 ≤ DNS_PKTSIZE ∧
        ∃ front back, segs = front ++ back ∧ front.flatten = frame m₁ := by
  have hgot := got_nil hl.tcp hl.off hl.len m₁.length
  -- behind the first message at most one query is answered, so the loop goes on
  have hgoes : ∀ {l' : Loop C}, Emptied l l' → Listening l' := by
    intro l' hl'
    refine hl'.listening ?_
    have hactive := hl'.active
    rw [hl.both] at hactive
    omega
  constructor
  · intro hall
    by_cases hbig : DNS_PKTSIZE < m₁.length + 2
    · rw [run_big api ov hbig _ hl.toListening hgot (by decide) hne hread
        (hjoin ▸ announces_frame h₁ _)] at hall
      cases hall
    obtain ⟨front, seg, back, l', rfl, hdone, -, hread', hout, hnext⟩ :=
      passed_first api ov hl.toListening hgot (by omega) hne hread hjoin
    rw [hout, List.cons.injEq] at hall
    have hrest := hall.2
    by_cases hshort : 2 ≤ m₁.length ∧ m₁.length < 14
    · rw [if_pos hshort] at hnext
      rw [passed, outputs_left api ov hnext] at hrest
      cases hrest
    rw [if_neg hshort] at hnext
    have hlisten := hgoes hnext
    have hcut : front.flatten ++ seg ++ back.flatten = frame m₁ ++ frame m₂ := by
      simp [← hjoin]
    -- the second message is paid by what comes behind the segment, so nothing of it is in it
    have hpaid := passed_budget api ov back (.inl hlisten) hnext.tcp
    rw [hrest, hnext.off] at hpaid
    simp only [map_cons, sum_cons] at hpaid
    have hsum := congrArg List.length hcut
    simp only [length_append, length_frame] at hsum
    rw [length_append] at hdone
    obtain ⟨hfront, hback⟩ := append_inj hcut (by rw [length_append, length_frame]; omega)
    refine ⟨by omega, by omega, ?_, front ++ [seg], back, by simp, by simpa using hfront⟩
    by_contra hbig2
    have hann := announces_frame h₂ []
    rw [append_nil, ← hback] at hann
    rw [run_big api ov (by omega) _ hlisten (hnext.got _) (by decide)
      (fun seg hmem => hne seg (mem_append_right _ (.tail _ hmem))) hread'
      hann] at hrest
    cases hrest
  · rintro ⟨hlong, hm1, hm2, front, back, rfl, hfront⟩
    have hback : back.flatten = frame m₂ := by
      rw [flatten_append, hfront] at hjoin
      exact append_cancel_left hjoin
    rw [readable_append] at hread
    obtain ⟨hout, hnext⟩ := passed_last api ov hl.toListening hgot hm1
      (fun seg hmem => hne seg (mem_append_left _ hmem)) hread.1 hfront
    rw [if_neg (by omega)] at hnext
    have hout2 := (passed_last api ov (hgoes hnext) (hnext.got _) hm2
      (fun seg hmem => hne seg (mem_append_right _ hmem)) hread.2 hback).1
    rw [passed_append, hout, hout2]
    rfl

end

theorem waiting_twoQueries : Waiting (twoQueries true) where
  active := by decide +kernel
  broke := by decide +kernel
  pollin := by decide +kernel
  pollout := by decide +kernel
  both := by decide +kernel
  v4 := by decide +kernel
  v6 := by decide +kernel
  tcp := by decide +kernel
  off := by decide +kernel
  len := by decide +kernel

/-- A stream with the responses to both queries, cut between them. -/
theorem responses_apart_reassembled : passed noCache Overlay.plain (twoQueries true)
        [[0], 19 :: plainResponse 8 0 28, frame (plainResponse 7 0 1)] =
      [plainResponse 8 0 28, plainResponse 7 0 1] :=
  (reassembled_iff _ _ _ waiting_twoQueries _ _ (by decide) (by decide)
    [[0], 19 :: plainResponse 8 0 28, frame _] (by decide)
    (readable_of_short _ _ _ (.inl waiting_twoQueries.toListening) waiting_twoQueries.tcp
      (by rw [waiting_twoQueries.off]; decide))
    (by decide)).2
    ⟨by decide, by decide, by decide, [[0], 19 :: plainResponse 8 0 28], [frame _], rfl, by decide⟩

/-- The same responses in one read: the second is lost. -/
theorem responses_together_lost : Readable noCache Overlay.plain (twoQueries true)
        [frame (plainResponse 8 0 28) ++ frame (plainResponse 7 0 1)] ∧
      passed noCache Overlay.plain (twoQueries true)
          [frame (plainResponse 8 0 28) ++ frame (plainResponse 7 0 1)] =
        [plainResponse 8 0 28] := by
  refine ⟨readable_of_short _ _ _ (Or.inl waiting_twoQueries.toListening) waiting_twoQueries.tcp ?_,
    by decide +kernel⟩
  rw [waiting_twoQueries.off]
  decide

end CDbK8s.Resolv
