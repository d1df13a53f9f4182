import CDbK8s.Resolv.Attempt

/-!
# Which readiness the loop handles

`send_query` asks `poll` for the events that the two queries wait for, and `try_nameserver` hands a
ready socket on if the mask is exactly one of the two events. With a query that is sent and one that
is not the mask has both, and nothing is done about a socket that is ready: the loop spins until the
deadline. One kind of round only leads there (`Ns.Splits`).
-/

namespace CDbK8s.Resolv

open Base Dns Lib.Runs

variable {C : Type}

/-! ## Interest -/

/-- With queries outstanding on an open socket, what `poll` waits for is one of the two masks that
the loop compares with. -/
def Loop.Heeds (l : Loop C) : Prop :=
  0 < l.ns.active → l.ns.sock.isOpen = true →
    l.pfd = ⟨true, true, false⟩ ∨ l.pfd = ⟨true, false, true⟩

theorem step_mixed (api : CacheApi C) (ov : Overlay) {l : Loop C} (hin : l.pfd.pollin = true)
    (hout : l.pfd.pollout = true) (io : Io) :
    (l.step api ov (.ready io)).ns = l.ns ∧ (l.step api ov (.ready io)).pfd = l.pfd := by
  have hsend : Loop.sending ov { l with rc := 1 } io = { l with rc := 1 } :=
    if_neg fun h => h.2 hin
  have hrecv : Loop.receiving api ov { l with rc := 1 } io = { l with rc := 1 } :=
    if_neg fun h => h.2 hout
  unfold Loop.step
  split
  · dsimp only
    rw [hsend, hrecv]
    exact ⟨rfl, rfl⟩
  · exact ⟨rfl, rfl⟩

/-- 1 while the connection is being made. -/
def Ns.connecting (ns : Ns C) : Int := if ns.sock.inProgress then 1 else 0

/-- The invariant of the loop: it watches what the queries wait for. -/
structure Orderly (l : Loop C) : Prop where
  single : ¬ (l.pfd.pollin = true ∧ l.pfd.pollout = true)
  watched : l.pfd.pollin = true ∨ l.pfd.pollout = true → 0 < l.ns.active → l.pfd.fd = true
  unwatched : l.pfd.pollin = false → l.pfd.pollout = false → l.ns.active ≤ 0
  sending : l.pfd.pollout = true → l.ns.Unsent ∧ l.ns.sock.isOpen = true ∧
    l.ns.active = l.ns.waiting + l.ns.connecting

theorem Orderly.heeds {l : Loop C} (h : Orderly l) : l.Heeds := by
  intro hactive _
  obtain ⟨ns, ⟨fd, pollin, pollout⟩, rc, broke⟩ := l
  have hfd := h.watched
  cases pollin with
  | true =>
    cases pollout with
    | true => exact absurd ⟨rfl, rfl⟩ h.single
    | false => exact .inl (by rw [← hfd (.inl rfl) hactive])
  | false =>
    cases pollout with
    | true => exact .inr (by rw [← hfd (.inr rfl) hactive])
    | false => exact absurd (h.unwatched rfl rfl) (by omega)

/-! ## Receiving -/

section
variable (api : CacheApi C) (ov : Overlay)

theorem recvResp_interest (ns : Ns C) (pfd : Pollfd) (r : ReadRes) :
    ((recvResp api ov ns pfd r).2 = pfd ∧ (recvResp api ov ns pfd r).1.active ≤ ns.active) ∨
      ((recvResp api ov ns pfd r).2 = { pfd with fd := false } ∧
        (recvResp api ov ns pfd r).1.active = 0) := by
  have hchk : (chkDnspkt ov (ns.read r)).2.active ≤ ns.active := by
    have hspec := (chkDnspkt_spec ov (ns.read r)).2
    split at hspec
    · rw [hspec]
      exact Int.le_refl _
    · obtain ⟨msg, rc, hspec⟩ := hspec
      rw [hspec, Ns.setRc, setQuery_active]
      rw [answered, setQuery_active]
      exact Int.sub_le_self _ (by decide)
  rcases rcvDnspkt_rc _ r with hrc | hrc | hrc
  · by_cases hlen : (ns.read r).sock.payload.len < DNS_HDR_LEN → (ns.read r).sock.isTcp = false
    · obtain ⟨ns', hgains, hrecv⟩ := recvResp_packet api ov pfd hrc hlen
      rw [hrecv]
      exact .inl ⟨rfl, hgains.active.trans_le hchk⟩
    · obtain ⟨hshort, htcp⟩ := Classical.not_imp.1 hlen
      rw [recvResp_short api ov pfd hrc hshort (Bool.not_eq_false _ ▸ htcp)]
      exact .inr ⟨rfl, rfl⟩
  · rw [recvResp_again api ov pfd hrc]
    exact .inl ⟨rfl, Int.le_refl _⟩
  · rw [recvResp_err api ov pfd hrc]
    exact .inr ⟨rfl, rfl⟩

theorem Orderly.receiving {l : Loop C} (h : Orderly l) (io : Io) :
    Orderly (l.receiving api ov io) := by
  unfold Loop.receiving
  split
  · rename_i hmask
    have hin : l.pfd.pollin = true := hmask.1
    have hout : l.pfd.pollout = false := Bool.not_eq_true _ ▸ hmask.2
    rcases recvResp_interest api ov _ _ _ with ⟨hpfd, hactive⟩ | ⟨hpfd, hactive⟩
    · refine ⟨?_, fun _ hpos => ?_, fun hin' => ?_, fun hout' => ?_⟩ <;> dsimp only at *
      · rw [hpfd]
        exact h.single
      · rw [hpfd]
        exact h.watched (.inl hin) (Int.lt_of_lt_of_le hpos hactive)
      · rw [hpfd, hin] at hin'
        cases hin'
      · rw [hpfd, hout] at hout'
        cases hout'
    · refine ⟨?_, fun _ hpos => ?_, fun hin' => ?_, fun hout' => ?_⟩ <;> dsimp only at *
      · rw [hpfd]
        exact h.single
      · rw [hactive] at hpos
        cases hpos
      · rw [hpfd, hin] at hin'
        cases hin'
      · rw [hpfd, hout] at hout'
        cases hout'
  · exact h

end

/-! ## Sending -/

section
variable (ov : Overlay) {ns : Ns C}

theorem Unsent.connected (h : ns.Unsent) : ns.connected.Unsent := by
  have hsock : ns.connected.useEsdn = ns.useEsdn ∧ ns.connected.sock.txLen = ns.sock.txLen ∧
      ns.connected.sock.txOff = ns.sock.txOff := by
    unfold Ns.connected
    split <;> exact ⟨rfl, rfl, rfl⟩
  obtain ⟨hesdn, hlen, hoff⟩ := hsock
  have hquery : ∀ fam, ns.connected.query fam = ns.query fam := connected_query ns
  have hres := (connected_quiet ns).res
  refine ⟨hesdn.trans h.useEsdn, fun fam => by rw [hquery, h.completed], ?_⟩
  rcases h.stage with hfresh | hhalf | hlate
  · refine .inl ⟨fun fam => ?_, hlen.trans hfresh.txLen, hoff.trans hfresh.txOff⟩
    rw [hquery]
    exact hfresh.idle fam
  · refine .inr (.inl ⟨?_, ?_, ?_, ?_⟩)
    · rw [hres, hhalf.needs]
    · rw [hquery, hhalf.send]
    · rw [hquery]
      exact hhalf.idle
    · rw [hlen, hoff]
      exact hhalf.tx
  · refine .inr (.inr ⟨?_, ?_, ?_, ?_, ?_⟩)
    · rw [hres, hlate.unneeded]
    · rw [hres, hlate.needs]
    · rw [hquery, hlate.idle]
    · rw [hquery, hlate.send]
    · rw [hlen, hoff]
      exact hlate.tx

theorem connected_active : ns.connected.active = ns.active - ns.connecting := by
  unfold Ns.connected Ns.connecting
  split
  · rfl
  · exact (Int.sub_zero _).symm

theorem connected_waiting : ns.connected.waiting = ns.waiting := by
  unfold Ns.waiting
  simp [connected_query]

theorem connected_isOpen : ns.connected.sock.isOpen = ns.sock.isOpen := by
  unfold Ns.connected
  split <;> rfl

theorem connected_connecting : ns.connected.connecting = 0 := by
  unfold Ns.connected
  split
  · rfl
  · rename_i hprog
    exact if_neg hprog

theorem connected_splits (io : Io) : ns.connected.Splits ov io ↔ ns.Splits ov io := by
  unfold Ns.connected
  split <;> exact Iff.rfl

theorem waiting_pos (h : ns.mask.pollin = true) : 0 < ns.waiting := by
  have hnonneg : ∀ q : Query, 0 ≤ q.open := by
    intro q
    unfold Query.open
    split <;> decide
  have hone : ∀ q : Query, q.state = .recv → q.open = 1 := by
    intro q hq
    unfold Query.open Query.outstanding
    rw [hq]
    rfl
  have h4 := hnonneg (ns.query .ip4)
  have h6 := hnonneg (ns.query .ip6)
  unfold Ns.waiting
  rcases of_decide_eq_true h with hrecv | hrecv
  · rw [hone _ hrecv]
    omega
  · rw [hone _ hrecv]
    omega

theorem orderly_of_mask {l : Loop C} (hactive : l.ns.active = l.ns.waiting)
    (hmask : l.pfd = l.ns.mask) (hsingle : ¬ (l.pfd.pollin = true ∧ l.pfd.pollout = true))
    (hconn : l.ns.connecting = 0)
    (hsending : l.pfd.pollout = true → l.ns.Unsent ∧ l.ns.sock.isOpen = true) : Orderly l := by
  refine ⟨hsingle, fun _ _ => by rw [hmask]; rfl, fun hin hout => ?_, fun hout => ?_⟩
  · have hnone : ∀ q : Query, q.state ≠ .recv → q.state ≠ .send → q.open = 0 := by
      intro q hrecv hsend
      unfold Query.open Query.outstanding
      rw [if_neg (by simp [hrecv, hsend])]
    rw [hmask] at hin hout
    obtain ⟨hrecv4, hrecv6⟩ := not_or.1 (of_decide_eq_false hin)
    obtain ⟨hsend4, hsend6⟩ := not_or.1 (of_decide_eq_false hout)
    rw [hactive, Ns.waiting, hnone _ hrecv4 hsend4, hnone _ hrecv6 hsend6]
    decide
  · rw [hconn, Int.add_zero]
    exact ⟨(hsending hout).1, (hsending hout).2, hactive⟩

theorem orderly_sendQueries (hns : ns.Unsent) (hopen : ns.sock.isOpen = true)
    (hactive : ns.active = ns.waiting) (hconn : ns.connecting = 0) (io : Io) (rc : Int)
    (broke : Bool) :
    (¬ ns.Splits ov io → Orderly ⟨(sendQueries ov ns io).1, (sendQueries ov ns io).2, rc, broke⟩) ∧
      (ns.Splits ov io →
        ((sendQueries ov ns io).2.pollin = true ∧ (sendQueries ov ns io).2.pollout = true) ∧
          ¬ Loop.Heeds ⟨(sendQueries ov ns io).1, (sendQueries ov ns io).2, rc, broke⟩) := by
  have hsent := sendQueries_sentOff ov hns io
  have hactive' : (sendQueries ov ns io).1.active = (sendQueries ov ns io).1.waiting := by
    have hsame := hsent.active
    omega
  have hopen' : (sendQueries ov ns io).1.sock.isOpen = true := hsent.line.isOpen.trans hopen
  refine ⟨fun hsplit => ?_, fun hsplit => ⟨hsent.split.2 hsplit, fun hheeds => ?_⟩⟩
  · refine orderly_of_mask hactive' hsent.mask (fun h => hsplit (hsent.split.1 h)) ?_ fun hout => ?_
    · unfold Ns.connecting at hconn ⊢
      rw [hsent.line.inProgress]
      exact hconn
    · refine ⟨hsent.again hout ?_, hopen'⟩
      exact Bool.eq_false_iff.2 fun hin => hsplit (hsent.split.1 ⟨hin, hout⟩)
  · obtain ⟨hin, hout⟩ := hsent.split.2 hsplit
    have hpos : 0 < (sendQueries ov ns io).1.active := by
      rw [hactive']
      exact waiting_pos (by rw [← hsent.mask, hin])
    rcases hheeds hpos hopen' with h | h
    · rw [show (sendQueries ov ns io).2 = _ from h] at hout
      cases hout
    · rw [show (sendQueries ov ns io).2 = _ from h] at hin
      cases hin

end

/-! ## Runs -/

variable (api : CacheApi C) (ov : Overlay)

/-- The event comes in a round that leaves the mask with both events. -/
def Loop.Splits (l : Loop C) : Event → Prop
  | .idle _ _ _ => False
  | .ready io =>
    l.running = true ∧ l.pfd.pollout = true ∧ l.pfd.pollin = false ∧
      ¬ (l.ns.sock.inProgress = true ∧ io.soError = true) ∧ l.ns.Splits ov io

/-- A round of sending keeps the masks apart exactly if it does not split the queries. -/
theorem Orderly.sent {l : Loop C} (h : Orderly l) (hout : l.pfd.pollout = true) (io : Io) :
    let r := sendQuery ov l.ns l.pfd io
    let splits := ¬ (l.ns.sock.inProgress = true ∧ io.soError = true) ∧ l.ns.Splits ov io
    (¬ splits → Orderly { l with ns := r.1, pfd := r.2 }) ∧
      (splits → (r.2.pollin = true ∧ r.2.pollout = true) ∧
        ¬ Loop.Heeds { l with ns := r.1, pfd := r.2 }) := by
  intro r _
  obtain ⟨hns, hopen, hactive⟩ := h.sending hout
  have hopen' : l.ns.connected.sock.isOpen = true := connected_isOpen.trans hopen
  have hactive' : l.ns.connected.active = l.ns.connected.waiting := by
    rw [connected_active, connected_waiting]
    omega
  have hr : r = _ := sendQuery_eq ov _ _ io
  by_cases hfail : l.ns.sock.inProgress = true ∧ io.soError = true
  · refine ⟨fun _ => ?_, fun hsplit => absurd hfail hsplit.1⟩
    rw [if_pos hfail] at hr
    rw [hr]
    -- the mask is that of the connect
    refine ⟨h.single, fun hmask hpos => ?_, fun _ hout' => ?_, fun _ => ?_⟩
    · refine h.watched hmask ?_
      have hle : l.ns.connected.active ≤ l.ns.active := by
        rw [connected_active]
        unfold Ns.connecting
        split <;> omega
      exact Int.lt_of_lt_of_le hpos hle
    · rw [hout] at hout'
      cases hout'
    · rw [connected_connecting, Int.add_zero]
      exact ⟨Unsent.connected hns, hopen', hactive'⟩
  · rw [if_neg hfail] at hr
    rw [hr]
    obtain ⟨hkeep, hmix⟩ := orderly_sendQueries ov (Unsent.connected hns) hopen' hactive'
      connected_connecting io _ _
    refine ⟨fun hsplit => hkeep fun hs => hsplit ⟨hfail, ?_⟩, fun hsplit => hmix ?_⟩
    · exact (connected_splits ov io).1 hs
    · exact (connected_splits ov io).2 hsplit.2

/-- One round keeps the masks apart exactly if it does not split the queries. -/
theorem Orderly.step {l : Loop C} (h : Orderly l) (e : Event) :
    (¬ l.Splits ov e → Orderly (l.step api ov e)) ∧
      (l.Splits ov e → ¬ (l.step api ov e).Heeds) := by
  by_cases hrun : l.running = true
  · cases e with
    | idle timedOut intr run =>
      refine ⟨fun _ => ?_, False.elim⟩
      rw [Loop.step, if_pos hrun]
      exact ⟨h.single, h.watched, h.unwatched, h.sending⟩
    | ready io =>
      have hstart : Orderly { l with rc := 1 } := ⟨h.single, h.watched, h.unwatched, h.sending⟩
      rw [Loop.step, if_pos hrun]
      by_cases hmask : l.pfd.pollout = true ∧ ¬ l.pfd.pollin = true
      · have hsend : Loop.sending ov { l with rc := 1 } io =
            { l with
              ns := (sendQuery ov l.ns l.pfd io).1
              pfd := (sendQuery ov l.ns l.pfd io).2
              rc := 1 } := if_pos hmask
        obtain ⟨hkeep, hmix⟩ := hstart.sent ov hmask.1 io
        rw [hsend]
        refine ⟨fun hsplit => Orderly.receiving api ov (hkeep fun hs => hsplit ?_) io,
          fun hsplit => ?_⟩
        · exact ⟨hrun, hmask.1, Bool.eq_false_iff.2 hmask.2, hs⟩
        · obtain ⟨hboth, hheeds⟩ := hmix hsplit.2.2.2
          rw [Loop.receiving, if_neg fun hin => hin.2 hboth.2]
          exact hheeds
      · have hsend : Loop.sending ov { l with rc := 1 } io = { l with rc := 1 } := if_neg hmask
        rw [hsend]
        refine ⟨fun _ => hstart.receiving api ov io, fun hsplit => absurd ⟨hsplit.2.1, ?_⟩ hmask⟩
        rw [hsplit.2.2.1]
        decide
  · rw [step_stopped api ov (Bool.eq_false_iff.2 hrun)]
    refine ⟨fun _ => h, fun hsplit => ?_⟩
    cases e with
    | idle timedOut intr run => exact hsplit.elim
    | ready io => exact absurd hsplit.1 hrun

/-- The server once it is connected. -/
def Ns.joined (ns : Ns C) : Ns C :=
  { ns with sock := doConnect .connected ns.useTcp ns.sock }

/-- The first round, on a socket that is connected at once. -/
def Script.Splits (script : Script) (ns : Ns C) : Prop :=
  script.connect = .connected ∧ ns.joined.Splits ov script.io

theorem unsent_fresh (name : Bytes) (useTcp : Bool) (res : Res) (glob : Glob C) (n : Int)
    {s : DnsSock} (hlen : s.txLen = 0) (hoff : s.txOff = 0) :
    ({ freshNs name useTcp res glob with active := n, sock := s } : Ns C).Unsent := by
  refine ⟨rfl, fun fam => ?_, .inl ⟨fun fam => ?_, hlen, hoff⟩⟩
  · cases fam <;> rfl
  · cases fam <;> exact ⟨rfl, rfl⟩

theorem freshLoop_orderly (script : Script) (name : Bytes) (useTcp : Bool) (res : Res)
    (glob : Glob C) :
    (¬ script.Splits ov (freshNs name useTcp res glob) →
        Orderly (freshLoop ov script name useTcp res glob)) ∧
      (script.Splits ov (freshNs name useTcp res glob) →
        ¬ (freshLoop ov script name useTcp res glob).Heeds) := by
  obtain ⟨connect, io, -⟩ := script
  cases connect with
  | noSocket =>
    exact ⟨fun _ => ⟨nofun, fun _ => nofun, fun _ _ => Int.le_refl _, nofun⟩, fun h => nomatch h.1⟩
  | refused =>
    exact ⟨fun _ => ⟨nofun, fun _ => nofun, fun _ _ => Int.le_refl _, nofun⟩, fun h => nomatch h.1⟩
  | inProgress =>
    refine ⟨fun _ => ⟨nofun, fun _ _ => rfl, nofun, fun _ => ⟨?_, rfl, rfl⟩⟩, fun h => nomatch h.1⟩
    exact unsent_fresh _ _ res _ 1 rfl rfl
  | connected =>
    have hns : (freshNs name useTcp res glob).joined.Unsent := unsent_fresh _ _ res _ 0 rfl rfl
    obtain ⟨hkeep, hmix⟩ := orderly_sendQueries ov hns rfl rfl rfl io _ false
    refine ⟨fun hsplit => hkeep fun hs => hsplit ⟨rfl, hs⟩, fun hsplit => (hmix hsplit.2).2⟩

/-- For every connection, every result of the writes and every order of the events: the loop hands
every ready socket on exactly if no round sends the first query to its end and has to wait with the
second one. -/
theorem ready_handled_iff (script : Script) (name : Bytes) (useTcp : Bool) (res : Res)
    (glob : Glob C) :
    EveryState (Loop.step api ov) Loop.Heeds (freshLoop ov script name useTcp res glob)
        script.events ↔
      ¬ script.Splits ov (freshNs name useTcp res glob) ∧
        EveryStep (Loop.step api ov) (fun l e => ¬ l.Splits ov e)
          (freshLoop ov script name useTcp res glob) script.events := by
  obtain ⟨hstart, hmixed⟩ := freshLoop_orderly ov _ _ _ res _
  have hrule : Orderly (freshLoop ov script name useTcp res glob) →
      (EveryState (Loop.step api ov) Loop.Heeds (freshLoop ov script name useTcp res glob)
          script.events ↔
        EveryStep (Loop.step api ov) (fun l e => ¬ l.Splits ov e)
          (freshLoop ov script name useTcp res glob) script.events) := fun h =>
    everyState_iff_everyStep (fun l e hl _ _ hsplit => (hl.step api ov e).1 hsplit)
      (fun l e hl _ _ => ⟨fun hheeds hsplit => (hl.step api ov e).2 hsplit hheeds,
        fun hsplit => ((hl.step api ov e).1 hsplit).heeds⟩)
      _ _ h (everyStep_of_forall (fun _ _ _ => trivial) _) h.heeds
  constructor
  · intro h
    have hsplit : ¬ script.Splits ov (freshNs name useTcp res glob) := fun hs => hmixed hs h.head
    exact ⟨hsplit, (hrule (hstart hsplit)).1 h⟩
  · rintro ⟨hsplit, h⟩
    exact (hrule (hstart hsplit)).2 h

/-- The query for IPv4 addresses is written, and that for IPv6 addresses would block. -/
def halfWritten : Io := ⟨false, .wrote 100, .eagain, .eagain⟩

/-- The loop after a round that splits the queries, with both of them outstanding. -/
def splitLoop : Loop Unit :=
  freshLoop Overlay.plain ⟨.connected, halfWritten, []⟩ [97] true (bothFamilies 16) ⟨(), 7, 0⟩

/-- Both queries are outstanding and the mask has both events, so a socket that is ready is never
read from or written to. -/
theorem split_loop_spins :
    splitLoop.ns.active = 2 ∧ splitLoop.ns.sock.isOpen = true ∧
      splitLoop.pfd = ⟨true, true, true⟩ ∧ ¬ splitLoop.Heeds ∧
      ∀ io, (splitLoop.step noCache Overlay.plain (.ready io)).ns = splitLoop.ns ∧
        (splitLoop.step noCache Overlay.plain (.ready io)).pfd = splitLoop.pfd := by
  have hactive : splitLoop.ns.active = 2 := by decide +kernel
  have hopen : splitLoop.ns.sock.isOpen = true := by decide +kernel
  have hpfd : splitLoop.pfd = ⟨true, true, true⟩ := by decide +kernel
  refine ⟨hactive, hopen, hpfd, fun h => ?_, fun io => ?_⟩
  · have hmask := h (by rw [hactive]; decide) hopen
    rw [hpfd] at hmask
    exact absurd hmask (by decide)
  · exact step_mixed noCache Overlay.plain (by rw [hpfd]) (by rw [hpfd]) io

end CDbK8s.Resolv
