import CDbK8s.Resolv.Authentic

/-!
# What the success of a nameserver means

`ns_getrc` makes one code of those of the two queries. The code of a query is 0 before anything
was heard of it, so a nameserver that cannot be reached, closes the connection or sends responses
that are of no use ends in `DNS_OK` without an address.

`Sent` is what sending does to a query, and `Loop.packet` the packet that an event delivers: one
round is sending, and then the check of this packet (`step_query`).
-/

namespace CDbK8s.Resolv

open Base Dns Lib

variable {res : Res}
variable {C : Type}

/-! ## What changes -/

section
variable {ns : Ns C} {fam : Fam}

@[simp] theorem setQuery_haveAns (q : Query) : (ns.setQuery fam q).haveAns = ns.haveAns := by
  cases fam <;> rfl

@[simp] theorem setQuery_haveIp4 (q : Query) : (ns.setQuery fam q).haveIp4 = ns.haveIp4 := by
  cases fam <;> rfl

@[simp] theorem setQuery_haveIp6 (q : Query) : (ns.setQuery fam q).haveIp6 = ns.haveIp6 := by
  cases fam <;> rfl

/-- What sending leaves as it is. -/
structure Ns.Quiet (ns ns' : Ns C) : Prop where
  res : ns'.res = ns.res
  haveAns : ns'.haveAns = ns.haveAns
  haveIp4 : ns'.haveIp4 = ns.haveIp4
  haveIp6 : ns'.haveIp6 = ns.haveIp6

theorem Ns.Quiet.refl (ns : Ns C) : ns.Quiet ns := ⟨rfl, rfl, rfl, rfl⟩

theorem Ns.Quiet.trans {ns1 ns2 ns3 : Ns C} (h : ns1.Quiet ns2) (h' : ns2.Quiet ns3) :
    ns1.Quiet ns3 :=
  ⟨h'.res.trans h.res, h'.haveAns.trans h.haveAns, h'.haveIp4.trans h.haveIp4,
    h'.haveIp6.trans h.haveIp6⟩

/-- Nothing but the query for `fam`, the message and the socket changes. -/
structure Ns.Touches (fam : Fam) (ns ns' : Ns C) : Prop extends ns.Quiet ns' where
  other : ∀ fam', fam' ≠ fam → ns'.query fam' = ns.query fam'

theorem Ns.Touches.trans {ns1 ns2 ns3 : Ns C} (h : ns1.Touches fam ns2)
    (h' : ns2.Touches fam ns3) : ns1.Touches fam ns3 :=
  ⟨h.toQuiet.trans h'.toQuiet, fun fam' hne => (h'.other fam' hne).trans (h.other fam' hne)⟩

theorem Ns.Touches.refl (fam : Fam) (ns : Ns C) : ns.Touches fam ns :=
  ⟨.refl ns, fun _ _ => rfl⟩

theorem touches_setQuery (ns' : Ns C) (h : ns.Quiet ns')
    (hquery : ∀ fam', ns'.query fam' = ns.query fam') (q : Query) :
    ns.Touches fam (ns'.setQuery fam q) := by
  refine ⟨⟨?_, ?_, ?_, ?_⟩, fun _ hne => ?_⟩
  · simp [h.res]
  · simp [h.haveAns]
  · simp [h.haveIp4]
  · simp [h.haveIp6]
  · rw [query_setQuery_of_ne ns' fam q hne, hquery]

section
variable (ov : Overlay) (w : WriteRes) (ns : Ns C) (fam : Fam)

theorem touches_active (n : Int) (q : Query) :
    ns.Touches fam ({ ns with active := n }.setQuery fam q) := by
  refine touches_setQuery _ ?_ (fun fam' => ?_) q
  · exact ⟨rfl, rfl, rfl, rfl⟩
  · cases fam' <;> rfl

theorem touches_sock (s : DnsSock) (q : Query) :
    ns.Touches fam ({ ns with sock := s }.setQuery fam q) := by
  refine touches_setQuery _ ?_ (fun fam' => ?_) q
  · exact ⟨rfl, rfl, rfl, rfl⟩
  · cases fam' <;> rfl

theorem touches_setRc (rc : Int) : ns.Touches fam (ns.setRc fam rc) :=
  touches_setQuery ns (.refl ns) (fun _ => rfl) _

theorem buildReq_rc (useEsdn : Bool) (msg : Msg) (tid : UInt16) (name : Bytes) (qtype : UInt16) :
    (buildReq ov useEsdn msg tid name qtype).1 = 0 ∨
      (buildReq ov useEsdn msg tid name qtype).1 = DNS_ERR := by
  have hqdn : ∀ m : Msg, (dnsAddQdn m name qtype DNS_CLASS_IN).1 = 0 ∨
      (dnsAddQdn m name qtype DNS_CLASS_IN).1 = DNS_ERR := by
    intro m
    unfold dnsAddQdn
    split
    · exact .inr rfl
    · split
      · exact .inr rfl
      · exact .inl rfl
  have hrr : ∀ m : Msg, (dnsAddRr ov m .ar esdnRr).1 = 0 ∨
      (dnsAddRr ov m .ar esdnRr).1 = DNS_ERR := by
    intro m
    unfold dnsAddRr
    simp only
    split
    · exact .inr rfl
    · split
      · exact .inr rfl
      · exact .inl rfl
  unfold buildReq
  simp only
  split
  · exact hqdn _
  · split
    · exact hrr _
    · exact hqdn _

theorem encDnspkt_rc (s : DnsSock) (msg : Msg) :
    (encDnspkt ov s msg).1 = 0 ∨ (encDnspkt ov s msg).1 = DNS_ERR := by
  unfold encDnspkt
  simp only
  split
  · exact .inr rfl
  · split
    · exact .inr rfl
    · exact .inl rfl

theorem sndDnspkt_rc (s : DnsSock) (w : WriteRes) :
    (sndDnspkt s w).1 = 0 ∨ (sndDnspkt s w).1 = DNS_ERR ∨ (sndDnspkt s w).1 = DNS_EAGAIN := by
  cases w with
  | eagain => exact .inr (.inr rfl)
  | fail => exact .inr (.inl rfl)
  | wrote n =>
    unfold sndDnspkt
    simp only
    split
    · exact .inl rfl
    · split
      · exact .inr (.inr rfl)
      · exact .inr (.inl rfl)

/-- A code of sending. -/
def SendCode (rc : Int) : Prop := rc = 0 ∨ rc = DNS_ERR ∨ rc = DNS_EAGAIN

/-- What sending does to a query: one that is done stays so with its code, and another may get a
code of sending. -/
def Sent (q q' : Query) : Prop :=
  (q'.lastRc = q.lastRc ∧ (q.state = .done → q'.state = .done)) ∨
    (q.state ≠ .done ∧ SendCode q'.lastRc)

theorem Sent.refl (q : Query) : Sent q q := .inl ⟨rfl, id⟩

theorem Sent.trans {q1 q2 q3 : Query} (h : Sent q1 q2) (h' : Sent q2 q3) : Sent q1 q3 := by
  rcases h with ⟨hrc, hdone⟩ | ⟨hopen, hcode⟩
  · rcases h' with ⟨hrc', hdone'⟩ | ⟨hopen', hcode'⟩
    · exact .inl ⟨hrc'.trans hrc, fun h => hdone' (hdone h)⟩
    · exact .inr ⟨fun h => hopen' (hdone h), hcode'⟩
  · rcases h' with ⟨hrc', -⟩ | ⟨-, hcode'⟩
    · exact .inr ⟨hopen, by rw [hrc']; exact hcode⟩
    · exact .inr ⟨hopen, hcode'⟩

theorem sendNow_sent : ns.Touches fam (sendNow w ns fam) ∧
      SendCode ((sendNow w ns fam).query fam).lastRc :=
  ⟨touches_sock ns fam _ _, by rw [sendNow, query_setQuery]; exact sndDnspkt_rc _ _⟩

theorem startQuery_sent : ns.Touches fam (startQuery ov w ns fam) ∧
      SendCode ((startQuery ov w ns fam).query fam).lastRc := by
  have hfirst := touches_active ns fam (ns.active + 1)
    { ns.query fam with qtype := fam.qtype, state := .send }
  unfold startQuery
  dsimp only
  generalize ({ ns with active := ns.active + 1 } : Ns C).setQuery fam
    { ns.query fam with qtype := fam.qtype, state := .send } = ns1 at hfirst
  have hbuilt : ns1.Touches fam (setDnsreq ov ns1 fam).2 := by
    refine touches_setQuery _ ?_ (fun fam' => ?_) _
    · exact ⟨rfl, rfl, rfl, rfl⟩
    · cases fam' <;> rfl
  have hreq : (setDnsreq ov ns1 fam).1 = 0 ∨ (setDnsreq ov ns1 fam).1 = DNS_ERR :=
    buildReq_rc ov _ _ _ _ _
  have hcoded := (hfirst.trans hbuilt).trans (touches_setRc _ fam (setDnsreq ov ns1 fam).1)
  split
  · rename_i hbad
    refine ⟨hcoded, ?_⟩
    rw [Ns.setRc, query_setQuery]
    exact .inr (.inl (hreq.resolve_left hbad))
  · generalize (setDnsreq ov ns1 fam).2.setRc fam (setDnsreq ov ns1 fam).1 = ns2 at hcoded ⊢
    have henc := hcoded.trans (touches_sock ns2 fam (encDnspkt ov ns2.sock ns2.msg).2
      { ({ ns2 with sock := (encDnspkt ov ns2.sock ns2.msg).2 } : Ns C).query fam with
        lastRc := (encDnspkt ov ns2.sock ns2.msg).1 })
    split
    · rename_i hbad
      refine ⟨henc, ?_⟩
      rw [Ns.setRc, query_setQuery]
      exact .inr (.inl ((encDnspkt_rc ov _ _).resolve_left hbad))
    · obtain ⟨htouch, hcode⟩ := sendNow_sent w
        (Ns.setRc { ns2 with sock := (encDnspkt ov ns2.sock ns2.msg).2 } fam
          (encDnspkt ov ns2.sock ns2.msg).1) fam
      exact ⟨henc.trans htouch, hcode⟩

theorem tryQuery_sent : ns.Touches fam (tryQuery ov w ns fam).2 ∧
      Sent (ns.query fam) ((tryQuery ov w ns fam).2.query fam) := by
  by_cases hneed : (!ns.res.needs fam) = true
  · rw [tryQuery, if_pos hneed]
    exact ⟨.refl fam ns, .refl _⟩
  · have hadvance : ns.Touches fam (advanceQuery ov w ns fam) ∧
        Sent (ns.query fam) ((advanceQuery ov w ns fam).query fam) := by
      unfold advanceQuery
      cases hstate : (ns.query fam).state with
      | idle =>
        dsimp only
        split
        · exact ⟨.refl fam ns, .refl _⟩
        · obtain ⟨htouch, hcode⟩ := startQuery_sent ov w ns fam
          exact ⟨htouch, .inr ⟨by rw [hstate]; decide, hcode⟩⟩
      | send =>
        obtain ⟨htouch, hcode⟩ := sendNow_sent w ns fam
        exact ⟨htouch, .inr ⟨by rw [hstate]; decide, hcode⟩⟩
      | recv => exact ⟨.refl fam ns, .refl _⟩
      | done => exact ⟨.refl fam ns, .refl _⟩
    have hsettle : ∀ ns : Ns C, ns.Touches fam (settleQuery ns fam) ∧
        Sent (ns.query fam) ((settleQuery ns fam).query fam) := by
      intro ns
      unfold settleQuery
      dsimp only
      split
      · exact ⟨touches_active ns fam _ _, .inl (by rw [query_setQuery]; exact ⟨rfl, fun _ => rfl⟩)⟩
      · exact ⟨.refl fam ns, .refl _⟩
    rw [tryQuery, if_neg hneed]
    exact ⟨hadvance.1.trans (hsettle _).1, hadvance.2.trans (hsettle _).2⟩

/-- The nameserver after the end of a connect. -/
def Ns.connected (ns : Ns C) : Ns C :=
  if ns.sock.inProgress then
    { ns with sock := { ns.sock with inProgress := false }, active := ns.active - 1 }
  else ns

theorem connected_quiet : ns.Quiet ns.connected := by
  unfold Ns.connected
  split <;> exact ⟨rfl, rfl, rfl, rfl⟩

theorem connected_query : ns.connected.query fam = ns.query fam := by
  unfold Ns.connected
  split <;> cases fam <;> rfl

theorem sendQuery_eq (pfd : Pollfd) (io : Io) : sendQuery ov ns pfd io =
      if ns.sock.inProgress ∧ io.soError then (ns.connected, pfd)
      else sendQueries ov ns.connected io := by
  unfold sendQuery Ns.connected
  cases ns.sock.inProgress <;> cases io.soError <;> rfl

theorem sendQuery_sent (pfd : Pollfd) (io : Io) : ns.Quiet (sendQuery ov ns pfd io).1 ∧
      Sent (ns.query fam) ((sendQuery ov ns pfd io).1.query fam) := by
  have hconn := connected_quiet ns
  rw [sendQuery_eq, ← connected_query ns fam]
  split
  · exact ⟨hconn, .refl _⟩
  · obtain ⟨h4, hsent4⟩ := tryQuery_sent ov io.write4 ns.connected .ip4
    obtain ⟨h6, hsent6⟩ := tryQuery_sent ov io.write6 (tryQuery ov io.write4 ns.connected .ip4).2 .ip6
    refine ⟨(hconn.trans h4.toQuiet).trans h6.toQuiet, ?_⟩
    unfold sendQueries
    cases fam with
    | ip4 =>
      rw [h6.other .ip4 (by decide)]
      exact hsent4
    | ip6 =>
      rw [h4.other .ip6 (by decide)] at hsent6
      exact hsent6

end

section
variable (api : CacheApi C) (ov : Overlay) (ns : Ns C) (fam : Fam)

theorem chkDnspkt_quiet : ns.Quiet (chkDnspkt ov ns).2 := by
  have hspec := (chkDnspkt_spec ov ns).2
  cases hto : answersTo ns with
  | none =>
    rw [hto] at hspec
    rw [hspec]
    exact .refl ns
  | some fam =>
    rw [hto] at hspec
    obtain ⟨msg, rc, heq⟩ := hspec
    rw [heq]
    constructor <;> simp [Ns.setRc, answered]

/-- The check of a packet: a query that it does not respond to is left alone, and one that it
responds to is done, with the code of the header if that is an error. -/
theorem chkDnspkt_query : (answersTo ns ≠ some fam → (chkDnspkt ov ns).2.query fam = ns.query fam) ∧
      (answersTo ns = some fam → ((chkDnspkt ov ns).2.query fam).state = .done ∧
        0 ≤ ((chkDnspkt ov ns).2.query fam).lastRc ∧ (rcodeOf ns.header.flags ≠ 0 →
          ((chkDnspkt ov ns).2.query fam).lastRc = rcodeOf ns.header.flags)) := by
  refine ⟨fun hto => ?_, fun hto => ?_⟩
  · have hspec := (chkDnspkt_spec ov ns).2
    cases hto' : answersTo ns with
    | none =>
      rw [hto'] at hspec
      rw [hspec]
    | some fam' =>
      rw [hto'] at hspec hto
      obtain ⟨msg, rc, heq⟩ := hspec
      have hne : fam ≠ fam' := fun h => hto (by rw [h])
      rw [heq]
      cases fam <;> cases fam' <;> first | exact absurd rfl hne | rfl
  · obtain ⟨-, -, -, hchk⟩ := chkDnspkt_some ov ns hto
    have hans : ((answered ns ns.header fam).query fam).state = .done ∧
        ((answered ns ns.header fam).query fam).lastRc = rcodeOf ns.header.flags := by
      simp [answered]
    have hnonneg : (0 : Int) ≤ rcodeOf ns.header.flags := Int.natCast_nonneg _
    have hrsp : chkDnspkt ov ns = chkDnsrsp ov ns ns.header fam := hchk
    rw [hrsp]
    unfold chkDnsrsp
    dsimp only
    split
    · exact ⟨hans.1, by rw [hans.2]; exact hnonneg, fun _ => hans.2⟩
    · split
      · exact ⟨hans.1, by rw [hans.2]; exact hnonneg, fun _ => hans.2⟩
      · rename_i hrc
        generalize answered ns ns.header fam = ns1 at hans ⊢
        have hquery : ∀ msg, ({ ns1 with msg := msg } : Ns C).query fam = ns1.query fam := by
          intro msg
          cases fam <;> rfl
        suffices h : ((chkMsg ov ns1 fam).2.query fam).state = .done ∧
            0 ≤ ((chkMsg ov ns1 fam).2.query fam).lastRc from
          ⟨h.1, h.2, fun hne => absurd (by simpa using hne) hrc⟩
        have hsame : ∀ msg, (({ ns1 with msg := msg } : Ns C).query fam).state = .done ∧
            0 ≤ (({ ns1 with msg := msg } : Ns C).query fam).lastRc := by
          intro msg
          rw [hquery, hans.2]
          exact ⟨hans.1, hnonneg⟩
        unfold chkMsg
        dsimp only
        split
        · exact hsame _
        · split
          · exact hsame _
          · split
            · -- the code of an OPT record takes the place of that of the header
              rename_i hopt
              rw [query_setQuery]
              exact ⟨(hsame _).1, chkDnsopt_nonneg ov hopt⟩
            · exact hsame _

theorem recvResp_query (pfd : Pollfd) (r : ReadRes) : (recvResp api ov ns pfd r).1.query fam =
      if (rcvDnspkt ns.sock r).1 = 0 then (chkDnspkt ov (ns.read r)).2.query fam
      else ns.query fam := by
  have hrecv : (recvResp api ov ns pfd r).1.query fam = (doResp api ov ns r).2.query fam := by
    unfold recvResp
    simp only
    split <;> cases fam <;> rfl
  rw [hrecv]
  by_cases hrcv : (rcvDnspkt ns.sock r).1 = 0
  · rw [if_pos hrcv]
    by_cases hok : (chkDnspkt ov (ns.read r)).1 = 0
    · rw [doResp_taken api ov hrcv hok]
      exact (addDnsans_gains api ov _).query fam
    · rw [doResp_objected api ov hrcv hok]
  · rw [doResp_unread api ov hrcv, if_neg hrcv]
    cases fam <;> rfl

end

end

/-! ## Rounds -/

section
variable (api : CacheApi C) (ov : Overlay)

/-- The nameserver with the packet that the event delivers, if it delivers a whole one. -/
def Loop.packet (l : Loop C) : Event → Option (Ns C)
  | .idle _ _ _ => none
  | .ready io =>
    if l.running = true ∧ (l.sending ov io).pfd.pollin = true ∧
        ¬ (l.sending ov io).pfd.pollout = true ∧
        (rcvDnspkt (l.sending ov io).ns.sock io.read).1 = 0 then
      some ((l.sending ov io).ns.read io.read)
    else none

/-- The event is a packet that passes `chk_dnspkt`. -/
def Loop.Accepts (l : Loop C) (e : Event) : Prop :=
  ∃ ns, l.packet ov e = some ns ∧ (chkDnspkt ov ns).1 = 0

/-- The event is a response to the query for `fam`. -/
def Loop.Answers (fam : Fam) (l : Loop C) (e : Event) : Prop :=
  ∃ ns, l.packet ov e = some ns ∧ answersTo ns = some fam

theorem sending_rc (l : Loop C) (io : Io) (rc : Int) :
    (Loop.sending ov { l with rc := rc } io).ns = (l.sending ov io).ns ∧
      (Loop.sending ov { l with rc := rc } io).pfd = (l.sending ov io).pfd := by
  unfold Loop.sending
  split <;> exact ⟨rfl, rfl⟩

theorem step_ready {l : Loop C} (h : l.running = true) (io : Io) : (l.step api ov (.ready io)).ns =
      if (l.sending ov io).pfd.pollin ∧ ¬ (l.sending ov io).pfd.pollout then
        (recvResp api ov (l.sending ov io).ns (l.sending ov io).pfd io.read).1
      else (l.sending ov io).ns := by
  obtain ⟨hns, hpfd⟩ := sending_rc ov l io 1
  rw [Loop.step, if_pos h, ← hns, ← hpfd]
  simp only [Loop.receiving]
  split <;> rfl

theorem step_idle (l : Loop C) (timedOut intr run : Bool) :
    (l.step api ov (.idle timedOut intr run)).ns = l.ns := by
  unfold Loop.step
  split <;> rfl

theorem sending_sent (l : Loop C) (io : Io) (fam : Fam) : l.ns.Quiet (l.sending ov io).ns ∧
      Sent (l.ns.query fam) ((l.sending ov io).ns.query fam) := by
  unfold Loop.sending
  split
  · exact sendQuery_sent ov _ fam _ io
  · exact ⟨.refl l.ns, .refl _⟩

/-- One round, for one of the queries: sending, and the check of the packet that is delivered. -/
theorem step_query (l : Loop C) (e : Event) (fam : Fam) :
    match l.packet ov e with
    | none => Sent (l.ns.query fam) ((l.step api ov e).ns.query fam)
    | some ns => Sent (l.ns.query fam) (ns.query fam) ∧
        (l.step api ov e).ns.query fam = (chkDnspkt ov ns).2.query fam := by
  cases e with
  | idle _ _ _ =>
    rw [Loop.packet, step_idle]
    exact .refl _
  | ready io =>
    by_cases hrun : l.running = true
    · have hsent := (sending_sent ov l io fam).2
      rw [Loop.packet, step_ready api ov hrun]
      by_cases hin : (l.sending ov io).pfd.pollin = true ∧ ¬ (l.sending ov io).pfd.pollout = true
      · rw [if_pos hin, recvResp_query]
        by_cases hrcv : (rcvDnspkt (l.sending ov io).ns.sock io.read).1 = 0
        · rw [if_pos ⟨hrun, hin.1, hin.2, hrcv⟩, if_pos hrcv]
          refine ⟨?_, rfl⟩
          have hread : ((l.sending ov io).ns.read io.read).query fam =
              (l.sending ov io).ns.query fam := by
            cases fam <;> rfl
          rw [hread]
          exact hsent
        · rw [if_neg fun h => hrcv h.2.2.2, if_neg hrcv]
          exact hsent
      · rw [if_neg fun h => hin ⟨h.2.1, h.2.2.1⟩, if_neg hin]
        exact hsent
    · have hstop : l.running = false := Bool.not_eq_true _ ▸ hrun
      rw [Loop.packet, if_neg fun h => hrun h.1, step_stopped api ov hstop]
      exact .refl _

/-- What a nameserver has found since the result was `res`: without an answer nothing was added,
and a family that was found was added. -/
structure Tally (res : Res) (ns : Ns C) : Prop where
  needs : ∀ fam, ns.res.needs fam = res.needs fam
  grows : res.numAddr ≤ ns.res.numAddr
  found : ns.haveIp4 = true ∨ ns.haveIp6 = true → res.numAddr < ns.res.numAddr

theorem Tally.quiet {ns ns' : Ns C} (h : Tally res ns) (hq : ns.Quiet ns') : Tally res ns' := by
  obtain ⟨hres, hans, h4, h6⟩ := hq
  refine ⟨?_, ?_, ?_⟩
  · rw [hres]
    exact h.needs
  · rw [hres]
    exact h.grows
  · rw [h4, h6, hres]
    exact h.found

theorem resAddIp_needs (res : Res) (ip : Ip) (fam : Fam) :
    (resAddIp res ip).2.needs fam = res.needs fam := by
  refine resAddIp_keeps res ip (P := fun r => r.needs fam = res.needs fam)
    (fun r _ _ h => Eq.trans ?_ h) (fun _ _ h => h) rfl
  unfold resAddIpPort resAddCall
  split
  · rfl
  · cases ip <;> cases fam <;> rfl

theorem lt_numAddr_of_index {ip : Ip} (hroom : resIsfull res = false) (h : (resAddIp res ip).1 ≠ -1) :
    res.numAddr < (resAddIp res ip).2.numAddr := by
  apply lt_resAddIp_numAddr
  by_contra hno
  rw [Res.takes, hroom, Bool.not_false, Bool.true_and, Bool.not_eq_true, Bool.or_eq_false_iff]
    at hno
  exact h (by rw [resAddIp_untyped ip hno.1 hno.2])

theorem Tally.addAnswer {ns : Ns C} (h : Tally res ns) (hroom : resIsfull ns.res = false) (rr : Rr) :
    Tally res (addAnswer api ov ns rr) ∧ (Resolv.addAnswer api ov ns rr).haveAns = ns.haveAns := by
  unfold Resolv.addAnswer
  cases rrIp ov rr with
  | none => exact ⟨h, rfl⟩
  | some ip =>
    have hle := le_resAddIp_numAddr ns.res ip
    have hneeds : ∀ fam, (resAddIp ns.res ip).2.needs fam = res.needs fam := fun fam =>
      (resAddIp_needs _ ip fam).trans (h.needs fam)
    simp only
    split
    · next hidx =>
        have hlt := lt_of_le_of_lt h.grows (lt_numAddr_of_index hroom hidx)
        cases ip with
        | v4 octets => exact ⟨⟨hneeds, hlt.le, fun _ => hlt⟩, rfl⟩
        | v6 octets => exact ⟨⟨hneeds, hlt.le, fun _ => hlt⟩, rfl⟩
    · exact ⟨⟨hneeds, h.grows.trans hle, fun hfound => lt_of_lt_of_le (h.found hfound) hle⟩, rfl⟩

theorem Tally.addAnswers (rrs : List Rr) : ∀ {ns : Ns C}, Tally res ns →
    Tally res (addAnswers api ov ns rrs) ∧ (Resolv.addAnswers api ov ns rrs).haveAns = ns.haveAns := by
  induction rrs with
  | nil => exact fun h => ⟨h, rfl⟩
  | cons rr rrs ih =>
    intro _ h
    rw [Resolv.addAnswers]
    split
    · exact ⟨h, rfl⟩
    · next hroom =>
        obtain ⟨hone, hans⟩ := h.addAnswer api ov (Bool.not_eq_true _ ▸ hroom) rr
        obtain ⟨hall, hans'⟩ := ih hone
        exact ⟨hall, hans'.trans hans⟩

/-- A read: an answer is there if there was one or the packet passes the checks. -/
theorem Tally.recvResp {ns : Ns C} (h : Tally res ns) (pfd : Pollfd) (r : ReadRes) :
    Tally res (recvResp api ov ns pfd r).1 ∧ (ns.haveAns = true ∨
        ((rcvDnspkt ns.sock r).1 = 0 ∧ (chkDnspkt ov (ns.read r)).1 = 0) →
      (Resolv.recvResp api ov ns pfd r).1.haveAns = true) := by
  have hrecv : (doResp api ov ns r).2.Quiet (Resolv.recvResp api ov ns pfd r).1 := by
    unfold Resolv.recvResp
    simp only
    split <;> exact ⟨rfl, rfl, rfl, rfl⟩
  suffices hresp : Tally res (doResp api ov ns r).2 ∧ (ns.haveAns = true ∨
      ((rcvDnspkt ns.sock r).1 = 0 ∧ (chkDnspkt ov (ns.read r)).1 = 0) →
        (doResp api ov ns r).2.haveAns = true) by
    rw [hrecv.haveAns]
    exact ⟨hresp.1.quiet hrecv, hresp.2⟩
  have hread : ns.Quiet (ns.read r) := ⟨rfl, rfl, rfl, rfl⟩
  by_cases hrcv : (rcvDnspkt ns.sock r).1 = 0
  · have hchk : ns.Quiet (chkDnspkt ov (ns.read r)).2 := hread.trans (chkDnspkt_quiet ov _)
    by_cases hok : (chkDnspkt ov (ns.read r)).1 = 0
    · rw [doResp_taken api ov hrcv hok]
      have htally := h.quiet hchk
      have hstart : Tally res { (chkDnspkt ov (ns.read r)).2 with haveAns := true } :=
        ⟨htally.needs, htally.grows, htally.found⟩
      obtain ⟨hadd, hans⟩ := hstart.addAnswers api ov (chkDnspkt ov _).2.msg.an.recs
      exact ⟨hadd, fun _ => hans⟩
    · rw [doResp_objected api ov hrcv hok, hchk.haveAns]
      exact ⟨h.quiet hchk, fun hor => hor.elim id fun hno => absurd hno.2 hok⟩
  · rw [doResp_unread api ov hrcv]
    exact ⟨h.quiet hread, fun hor => hor.elim id fun hno => absurd hno.1 hrcv⟩

theorem Tally.step {l : Loop C} (h : Tally res l.ns) (e : Event) : Tally res (l.step api ov e).ns ∧
    (l.ns.haveAns = true ∨ l.Accepts ov e → (l.step api ov e).ns.haveAns = true) := by
  cases e with
  | idle _ _ _ =>
    rw [step_idle]
    exact ⟨h, fun hor => hor.elim id fun hacc => by cases hacc.choose_spec.1⟩
  | ready io =>
    unfold Loop.Accepts
    rw [Loop.packet]
    by_cases hrun : l.running = true
    · rw [step_ready api ov hrun]
      have hsend := (sending_sent ov l io .ip4).1
      have htally := h.quiet hsend
      rw [← hsend.haveAns]
      split
      · obtain ⟨hstep, hans⟩ := htally.recvResp api ov (l.sending ov io).pfd io.read
        refine ⟨hstep, fun hor => hans (hor.imp_right ?_)⟩
        rintro ⟨ns, hpkt, hok⟩
        split_ifs at hpkt with hall
        cases hpkt
        exact ⟨hall.2.2.2, hok⟩
      · next hin =>
          refine ⟨htally, fun hor => hor.elim id ?_⟩
          rintro ⟨ns, hpkt, -⟩
          split_ifs at hpkt with hall
          exact absurd ⟨hall.2.1, hall.2.2.1⟩ hin
    · have hsame : l.step api ov (.ready io) = l := by rw [Loop.step, if_neg hrun]
      rw [hsame, if_neg fun hpkt => hrun hpkt.1]
      simp [h]

theorem Tally.run (es : List Event) : ∀ {l : Loop C}, Tally res l.ns →
    Tally res (l.run api ov es).ns ∧ (l.ns.haveAns = true ∨
        ¬ Runs.EveryStep (Loop.step api ov) (fun l e => ¬ l.Accepts ov e) l es →
      (l.run api ov es).ns.haveAns = true) := by
  induction es with
  | nil => exact fun h => ⟨h, fun hor => hor.elim id fun hno => absurd trivial hno⟩
  | cons e es ih =>
    intro l h
    obtain ⟨hstep, hans⟩ := h.step api ov e
    obtain ⟨hrun, hans'⟩ := ih hstep
    refine ⟨hrun, fun hor => hans' ?_⟩
    rw [Runs.EveryStep] at hor
    tauto

end

/-! ## The result -/

section
variable {ns : Ns C}

end

theorem start_sent (ov : Overlay) (ns : Ns C) (c : ConnectRes) (io : Io) (fam : Fam) :
    ns.Quiet (Loop.start ov ns c io).ns ∧
      Sent (ns.query fam) ((Loop.start ov ns c io).ns.query fam) ∧
      (Loop.start ov ns c io).rc = DNS_OK := by
  have hquery : ∀ (s : DnsSock) (n : Int),
      Sent (ns.query fam) (({ ns with sock := s, active := n } : Ns C).query fam) := by
    intro s n
    cases fam <;> exact .refl _
  cases c with
  | noSocket => exact ⟨⟨rfl, rfl, rfl, rfl⟩, hquery _ ns.active, rfl⟩
  | refused => exact ⟨⟨rfl, rfl, rfl, rfl⟩, hquery _ ns.active, rfl⟩
  | inProgress => exact ⟨⟨rfl, rfl, rfl, rfl⟩, hquery _ _, rfl⟩
  | connected =>
    obtain ⟨hquiet, hsent⟩ := sendQuery_sent ov
      { ns with sock := doConnect .connected ns.useTcp ns.sock } fam ⟨false, false, false⟩ io
    exact ⟨⟨hquiet.res, hquiet.haveAns, hquiet.haveIp4, hquiet.haveIp6⟩,
      (hquery _ ns.active).trans hsent, rfl⟩

variable (api : CacheApi C) (ov : Overlay) (script : Script) (name : Bytes) (useTcp : Bool)
  (res : Res) (glob : Glob C)

/-- The nameserver that `try_nameserver` starts with. -/
def freshNs : Ns C := Ns.start name useTcp res { glob with tried := glob.tried + 1 }

/-- The loop that `try_nameserver` starts with. -/
def freshLoop : Loop C := Loop.start ov (freshNs name useTcp res glob) script.connect script.io

/-- A result for addresses of both families, with room for `maxAddr` of them. -/
def bothFamilies (maxAddr : Nat) : Res :=
  { Res.start ⟨true, false, true, true, false, false, false, false⟩ [97] [] maxAddr
      fun _ => SockAddr.zero with
    needIp4 := true, needIp6 := true }

end CDbK8s.Resolv
