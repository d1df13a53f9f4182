import CDbK8s.Resolv.Request
import CDbK8s.Resolv.Success

/-!
# How an attempt to send a query ends

`try_query` has one of three outcomes on a query that is to be sent (`Sending`): the query is sent
and its response is waited for, the socket takes no more bytes for now, or the query has failed.
-/

namespace CDbK8s.Resolv

open Dns

variable {s : DnsSock}
variable {C : Type}

/-! ## Writes -/

/-- What becomes of a request that is sent. -/
inductive Sending where
  | sent
  | waits
  | fails
deriving DecidableEq

/-- The state of the query after that. -/
def Sending.state : Sending → DnsState
  | .sent => .recv
  | .waits => .send
  | .fails => .done

/-- What `snd_dnspkt` returns. -/
def Sending.rc : Sending → Int
  | .sent => 0
  | .waits => DNS_EAGAIN
  | .fails => DNS_ERR

/-- The number of queries that are outstanding after an attempt, of the one that was made. -/
def Sending.open : Sending → Int
  | .sent => 1
  | .waits => 1
  | .fails => 0

/-- What is left of the request. -/
def Sending.Leaves (off len : Nat) : Sending → Prop
  | .sent => off = 0 ∧ len = 0
  | .waits => off < len
  | .fails => off < len

/-- How a write of `left` bytes goes. -/
def WriteRes.goes (isTcp : Bool) (left : Nat) : WriteRes → Sending
  | .wrote n => if left ≤ n then .sent else if isTcp then .waits else .fails
  | .eagain => .waits
  | .fail => .fails

theorem sndDnspkt_goes (h : s.txOff < s.txLen) (w : WriteRes) :
    (sndDnspkt s w).1 = (w.goes s.isTcp (s.txLen - s.txOff)).rc ∧
      ∃ off len, (sndDnspkt s w).2 = { s with txOff := off, txLen := len } ∧
        (w.goes s.isTcp (s.txLen - s.txOff)).Leaves off len := by
  cases w with
  | eagain => exact ⟨rfl, _, _, rfl, h⟩
  | fail => exact ⟨rfl, _, _, rfl, h⟩
  | wrote n =>
    unfold sndDnspkt WriteRes.goes
    dsimp only
    by_cases hall : s.txLen - s.txOff ≤ n
    · rw [if_pos (by omega), if_pos hall]
      exact ⟨rfl, _, _, rfl, rfl, rfl⟩
    · have hpart : s.txOff + min n (s.txLen - s.txOff) < s.txLen := by omega
      rw [if_neg (by omega), if_neg hall]
      -- a datagram that was cut has failed
      cases s.isTcp with
      | true => exact ⟨rfl, _, _, rfl, hpart⟩
      | false => exact ⟨rfl, _, _, rfl, hpart⟩

/-! ## Attempts -/

/-- The same name and the same connection. -/
structure Ns.SameLine (ns ns' : Ns C) : Prop where
  name : ns'.name = ns.name
  useEsdn : ns'.useEsdn = ns.useEsdn
  isTcp : ns'.sock.isTcp = ns.sock.isTcp
  isOpen : ns'.sock.isOpen = ns.sock.isOpen
  inProgress : ns'.sock.inProgress = ns.sock.inProgress

theorem Ns.SameLine.refl (ns : Ns C) : ns.SameLine ns := ⟨rfl, rfl, rfl, rfl, rfl⟩

theorem Ns.SameLine.trans {ns1 ns2 ns3 : Ns C} (h : ns1.SameLine ns2) (h' : ns2.SameLine ns3) :
    ns1.SameLine ns3 :=
  ⟨h'.name.trans h.name, h'.useEsdn.trans h.useEsdn, h'.isTcp.trans h.isTcp,
    h'.isOpen.trans h.isOpen, h'.inProgress.trans h.inProgress⟩

/-- What an attempt to send the query for `fam` leaves behind, next to `rest` other outstanding
queries. The bytes of a query that failed on its way stay in the buffer. -/
structure Attempted (ov : Overlay) (fam : Fam) (ns ns' : Ns C) (rest : Int) (g : Sending) :
    Prop where
  line : ns.SameLine ns'
  active : ns'.active = rest + g.open
  state : (ns'.query fam).state = g.state
  completed : (ns'.query fam).completed = (ns.query fam).completed + if g = .fails then 1 else 0
  sent : g = .sent → ns'.sock.txLen = 0 ∧ ns'.sock.txOff = 0
  waits : g = .waits → ns'.sock.txOff < ns'.sock.txLen
  fails : g = .fails → 0 < ns'.sock.txLen ∨ (requestLen ov ns.sock.isTcp ns.name = none ∧
      ns'.sock.txLen = ns.sock.txLen ∧ ns'.sock.txOff = ns.sock.txOff)

section
variable (ov : Overlay) (w : WriteRes) {ns : Ns C} {fam : Fam}

theorem settleQuery_failed (h : (ns.query fam).lastRc = DNS_ERR) :
    settleQuery ns fam = { ns with active := ns.active - 1 }.setQuery fam
      { ns.query fam with state := .done, completed := (ns.query fam).completed + 1 } := by
  unfold settleQuery
  rw [if_pos (by rw [h]; decide)]

theorem settleQuery_alive (h : (ns.query fam).lastRc = 0 ∨ (ns.query fam).lastRc = DNS_EAGAIN) :
    settleQuery ns fam = ns := by
  unfold settleQuery
  rcases h with h | h <;> rw [if_neg (by rw [h]; decide)]

theorem sendNow_attempted (hstate : (ns.query fam).state = .send)
    (htx : ns.sock.txOff < ns.sock.txLen) :
    Attempted ov fam ns (settleQuery (sendNow w ns fam) fam) (ns.active - 1)
      (w.goes ns.sock.isTcp (ns.sock.txLen - ns.sock.txOff)) := by
  obtain ⟨hrc, off, len, hsock, htx'⟩ := sndDnspkt_goes htx w
  have hsend : sendNow w ns fam =
      ({ ns with sock := { ns.sock with txOff := off, txLen := len } } : Ns C).setQuery fam
        { ns.query fam with
          lastRc := (w.goes ns.sock.isTcp (ns.sock.txLen - ns.sock.txOff)).rc
          state := if (w.goes ns.sock.isTcp (ns.sock.txLen - ns.sock.txOff)).rc = 0 then .recv
            else (ns.query fam).state } := by
    rw [sendNow, hsock, hrc]
  rw [hsend, hstate]
  generalize w.goes ns.sock.isTcp _ = g at htx'
  cases g with
  | sent =>
    rw [settleQuery_alive (.inl (by rw [query_setQuery]; rfl))]
    refine ⟨⟨?_, ?_, ?_, ?_, ?_⟩, ?_, ?_, ?_, fun _ => ?_, ?_, ?_⟩
    all_goals simp [Sending.open, Sending.state, Sending.rc]
    exact htx'.symm
  | waits =>
    rw [settleQuery_alive (.inr (by rw [query_setQuery]; rfl))]
    refine ⟨⟨?_, ?_, ?_, ?_, ?_⟩, ?_, ?_, ?_, ?_, fun _ => ?_, ?_⟩
    all_goals simp [Sending.open, Sending.state, Sending.rc, DNS_EAGAIN]
    exact htx'
  | fails =>
    rw [settleQuery_failed (by rw [query_setQuery]; rfl)]
    refine ⟨⟨?_, ?_, ?_, ?_, ?_⟩, ?_, ?_, ?_, ?_, ?_, fun _ => .inl ?_⟩
    all_goals simp [Sending.open, Sending.state]
    exact Nat.zero_lt_of_lt htx'

/-- The nameserver with the query for `fam` begun: its message, the socket, and the code so far. -/
def Ns.begun (ns : Ns C) (fam : Fam) (rc : Int) (msg : Msg) (s : DnsSock) : Ns C :=
  ({ ns with
    active := ns.active + 1
    msg := msg
    sock := s
    glob := { ns.glob with nextTid := ns.glob.nextTid + 1 } } : Ns C).setQuery fam
      { ns.query fam with
        qtype := fam.qtype, state := .send, tid := ns.glob.nextTid, qname := ns.name,
        qclass := DNS_CLASS_IN, lastRc := rc }

theorem startQuery_eq (fam : Fam) : startQuery ov w ns fam =
      let req := buildReq ov ns.useEsdn ns.msg ns.glob.nextTid ns.name fam.qtype
      if req.1 ≠ 0 then ns.begun fam req.1 req.2 ns.sock
      else
        let enc := encDnspkt ov ns.sock req.2
        if enc.1 ≠ 0 then ns.begun fam enc.1 req.2 enc.2
        else sendNow w (ns.begun fam enc.1 req.2 enc.2) fam := by
  cases fam <;> rfl

theorem begun_sameLine (fam : Fam) (rc : Int) (msg : Msg) (htcp : s.isTcp = ns.sock.isTcp)
    (hopen : s.isOpen = ns.sock.isOpen) (hprog : s.inProgress = ns.sock.inProgress) :
    ns.SameLine (ns.begun fam rc msg s) := by
  refine ⟨?_, ?_, ?_, ?_, ?_⟩
  all_goals simp only [Ns.begun, setQuery_name, setQuery_useEsdn, setQuery_sock, *]

theorem begun_failed (hreq : requestLen ov ns.sock.isTcp ns.name = none) (fam : Fam) (msg : Msg)
    (htcp : s.isTcp = ns.sock.isTcp) (hopen : s.isOpen = ns.sock.isOpen)
    (hprog : s.inProgress = ns.sock.inProgress) (hlen : s.txLen = ns.sock.txLen)
    (hoff : s.txOff = ns.sock.txOff) :
    Attempted ov fam ns (settleQuery (ns.begun fam DNS_ERR msg s) fam) ns.active .fails := by
  have hline := begun_sameLine fam DNS_ERR msg htcp hopen hprog
  rw [settleQuery_failed (by rw [Ns.begun, query_setQuery])]
  refine ⟨⟨?_, ?_, ?_, ?_, ?_⟩, ?_, ?_, ?_, nofun, nofun, fun _ => .inr ⟨hreq, ?_, ?_⟩⟩
  · simp [← hline.name]
  · simp [← hline.useEsdn]
  · simp [← hline.isTcp]
  · simp [← hline.isOpen]
  · simp [← hline.inProgress]
  · have hactive : (ns.begun fam DNS_ERR msg s).active = ns.active + 1 := by
      simp [Ns.begun]
    rw [setQuery_active]
    show (ns.begun fam DNS_ERR msg s).active - 1 = ns.active + 0
    omega
  · rw [query_setQuery]
    rfl
  · rw [query_setQuery, Ns.begun, query_setQuery]
    rfl
  · simp [Ns.begun, hlen]
  · simp [Ns.begun, hoff]

/-- What becomes of a new request. -/
def Ns.opens (ns : Ns C) : Sending :=
  match requestLen ov ns.sock.isTcp ns.name with
  | none => .fails
  | some len => w.goes ns.sock.isTcp len

/-- The first attempt to send a query, on a socket that has nothing to send. -/
theorem startQuery_attempted (hesdn : ns.useEsdn = true) (hoff : ns.sock.txOff = 0) (fam : Fam) :
    Attempted ov fam ns (settleQuery (startQuery ov w ns fam) fam) ns.active (ns.opens ov w) := by
  have hspec := request_spec ov ns.sock ns.msg ns.glob.nextTid ns.name fam.qtype
  rw [startQuery_eq, hesdn, Ns.opens]
  dsimp only
  cases hreq : requestLen ov ns.sock.isTcp ns.name with
  | none =>
    rw [hreq] at hspec
    rcases hspec with hbuild | ⟨hbuild, henc, buf, hsock⟩
    · rw [hbuild]
      exact begun_failed ov hreq fam _ rfl rfl rfl rfl rfl
    · rw [hbuild, henc, hsock]
      exact begun_failed ov hreq fam _ rfl rfl rfl rfl rfl
  | some len =>
    rw [hreq] at hspec
    obtain ⟨hlen, hbuild, henc, buf, hsock⟩ := hspec
    rw [hbuild, henc, hsock, if_neg (by decide), if_neg (by decide)]
    generalize (buildReq ov true ns.msg ns.glob.nextTid ns.name fam.qtype).2 = msg
    generalize hbegun : ns.begun fam 0 msg { ns.sock with txBuf := buf, txLen := len } = ns'
    have hline : ns.SameLine ns' := by
      rw [← hbegun]
      exact begun_sameLine fam 0 msg rfl rfl rfl
    have hquery : (ns'.query fam).state = .send ∧
        (ns'.query fam).completed = (ns.query fam).completed := by
      rw [← hbegun, Ns.begun, query_setQuery]
      exact ⟨rfl, rfl⟩
    have hactive : ns'.active = ns.active + 1 := by rw [← hbegun, Ns.begun, setQuery_active]
    have htx : ns'.sock.txOff = 0 ∧ ns'.sock.txLen = len := by
      rw [← hbegun, Ns.begun, setQuery_sock]
      exact ⟨hoff, rfl⟩
    have hsend := sendNow_attempted ov w hquery.1 (by rw [htx.1, htx.2]; exact hlen)
    rw [htx.1, htx.2, Nat.sub_zero, hline.isTcp, hactive, Int.add_sub_cancel] at hsend
    refine ⟨hline.trans hsend.line, hsend.active, hsend.state, ?_, hsend.sent, hsend.waits,
      fun h => ?_⟩
    · rw [hsend.completed, hquery.2]
    · -- the bytes of the query are in the buffer
      rcases hsend.fails h with hleft | ⟨-, hlen', -⟩
      · exact .inl hleft
      · exact .inl (by rw [hlen', htx.2]; exact hlen)

/-- A query that an attempt can be made for: it is half sent, or the socket has nothing to send. -/
def Ns.Ready (ns : Ns C) (fam : Fam) : Prop :=
  ((ns.query fam).state = .send ∧ ns.sock.txOff < ns.sock.txLen) ∨
    ((ns.query fam).state = .idle ∧ ns.sock.txLen = 0 ∧ ns.sock.txOff = 0 ∧ ns.useEsdn = true)

/-- What becomes of the request of a query. -/
def Ns.goes (ns : Ns C) (fam : Fam) : Sending :=
  if (ns.query fam).state = .send then w.goes ns.sock.isTcp (ns.sock.txLen - ns.sock.txOff)
  else ns.opens ov w

/-- 1 for a query that waits. -/
def Query.open (q : Query) : Int := if q.outstanding then 1 else 0

theorem tryQuery_unneeded (h : ns.res.needs fam = false) : tryQuery ov w ns fam = (.idle, ns) := by
  rw [tryQuery, h]
  rfl

theorem tryQuery_pending (hstate : (ns.query fam).state = .idle) (hrc : (ns.query fam).lastRc = 0)
    (htx : 0 < ns.sock.txLen) : tryQuery ov w ns fam = (.idle, ns) := by
  have hadvance : advanceQuery ov w ns fam = ns := by
    unfold advanceQuery
    rw [hstate]
    exact if_pos htx
  unfold tryQuery
  split
  · rfl
  · rw [hadvance, settleQuery_alive (.inl hrc)]
    exact congrArg (·, ns) hstate

theorem tryQuery_attempted (hneed : ns.res.needs fam = true) (h : ns.Ready fam) :
    Attempted ov fam ns (tryQuery ov w ns fam).2 (ns.active - (ns.query fam).open)
        (ns.goes ov w fam) ∧
      (tryQuery ov w ns fam).1 = (ns.goes ov w fam).state := by
  have hatt : Attempted ov fam ns (tryQuery ov w ns fam).2 (ns.active - (ns.query fam).open)
      (ns.goes ov w fam) := by
    rw [tryQuery, hneed]
    unfold advanceQuery Ns.goes Query.open Query.outstanding
    rcases h with ⟨hstate, htx⟩ | ⟨hstate, hlen, hoff, hesdn⟩
    · simp only [hstate]
      exact sendNow_attempted ov w hstate htx
    · simp only [hstate, hlen]
      rw [if_neg (by decide), if_neg (by decide), if_neg (by decide), Int.sub_zero]
      exact startQuery_attempted ov w hesdn hoff fam
  refine ⟨hatt, ?_⟩
  have hout : (tryQuery ov w ns fam).1 = ((tryQuery ov w ns fam).2.query fam).state := by
    rw [tryQuery, hneed]
    rfl
  rw [hout, hatt.state]

end

/-! ## A round of sending -/

/-- Nothing was sent yet. -/
structure Ns.Fresh (ns : Ns C) : Prop where
  idle : ∀ fam, (ns.query fam).state = .idle ∧ (ns.query fam).lastRc = 0
  txLen : ns.sock.txLen = 0
  txOff : ns.sock.txOff = 0

/-- The first query is half sent, the second has not begun. -/
structure Ns.Half (ns : Ns C) : Prop where
  needs : ns.res.needs .ip4 = true
  send : (ns.query .ip4).state = .send
  idle : (ns.query .ip6).state = .idle ∧ (ns.query .ip6).lastRc = 0
  tx : ns.sock.txOff < ns.sock.txLen

/-- The only query is half sent. -/
structure Ns.Late (ns : Ns C) : Prop where
  unneeded : ns.res.needs .ip4 = false
  needs : ns.res.needs .ip6 = true
  idle : (ns.query .ip4).state = .idle
  send : (ns.query .ip6).state = .send
  tx : ns.sock.txOff < ns.sock.txLen

/-- No query has ended: nothing was sent yet, or only a part. -/
structure Ns.Unsent (ns : Ns C) : Prop where
  useEsdn : ns.useEsdn = true
  completed : ∀ fam, (ns.query fam).completed = 0
  stage : ns.Fresh ∨ ns.Half ∨ ns.Late

def Ns.waiting (ns : Ns C) : Int := (ns.query .ip4).open + (ns.query .ip6).open

/-- The events that the queries wait for. -/
def Ns.mask (ns : Ns C) : Pollfd :=
  ⟨true, (ns.query .ip4).state = .recv ∨ (ns.query .ip6).state = .recv,
    (ns.query .ip4).state = .send ∨ (ns.query .ip6).state = .send⟩

/-- The first query is sent to its end and the second one is not. -/
def Ns.Splits (ov : Overlay) (ns : Ns C) (io : Io) : Prop :=
  ns.res.needs .ip4 = true ∧ ns.res.needs .ip6 = true ∧ ns.goes ov io.write4 .ip4 = .sent ∧
    ns.opens ov io.write6 = .waits

/-- What a call of `send_queries` leaves. -/
structure SentOff (ov : Overlay) (ns : Ns C) (io : Io) (r : Ns C × Pollfd) : Prop where
  line : ns.SameLine r.1
  active : r.1.active - r.1.waiting = ns.active - ns.waiting
  mask : r.2 = r.1.mask
  completed : ∀ fam, (r.1.query fam).completed = if (r.1.query fam).state = .done then 1 else 0
  again : r.2.pollout = true → r.2.pollin = false → r.1.Unsent
  split : (r.2.pollin = true ∧ r.2.pollout = true) ↔ ns.Splits ov io

variable (ov : Overlay) {ns : Ns C}

theorem open_idle {q : Query} (h : q.state = .idle) : q.open = 0 := by
  unfold Query.open Query.outstanding
  rw [h]
  rfl

theorem open_attempted {q : Query} {g : Sending} (h : q.state = g.state) : q.open = g.open := by
  unfold Query.open Query.outstanding
  rw [h]
  cases g <;> rfl

theorem tryQuery_second (w : WriteRes) (hidle : (ns.query .ip6).state = .idle)
    (hrc : (ns.query .ip6).lastRc = 0) (hesdn : ns.useEsdn = true)
    (htx : ns.sock.txLen = 0 → ns.sock.txOff = 0) :
    ((ns.res.needs .ip6 = true → 0 < ns.sock.txLen) ∧ tryQuery ov w ns .ip6 = (.idle, ns)) ∨
      (ns.res.needs .ip6 = true ∧ ns.sock.txLen = 0 ∧
        Attempted ov .ip6 ns (tryQuery ov w ns .ip6).2 ns.active (ns.opens ov w) ∧
        (tryQuery ov w ns .ip6).1 = (ns.opens ov w).state) := by
  cases hneed : ns.res.needs .ip6 with
  | false => exact .inl ⟨nofun, tryQuery_unneeded ov w hneed⟩
  | true =>
    rcases Nat.eq_zero_or_pos _ with hlen | hlen
    · have hatt := tryQuery_attempted ov w hneed (.inr ⟨hidle, hlen, htx hlen, hesdn⟩)
      have hgoes : ns.goes ov w .ip6 = ns.opens ov w := if_neg (by rw [hidle]; decide)
      rw [hgoes, open_idle hidle, Int.sub_zero] at hatt
      exact .inr ⟨rfl, hlen, hatt⟩
    · exact .inl ⟨fun _ => hlen, tryQuery_pending ov w hidle hrc hlen⟩

theorem sentOff_of_states {ns' : Ns C} {io : Io} {s4 s6 : DnsState}
    (h4 : (ns'.query .ip4).state = s4) (h6 : (ns'.query .ip6).state = s6) (hline : ns.SameLine ns')
    (hactive : ns'.active - ns'.waiting = ns.active - ns.waiting)
    (hdone : ∀ fam, (ns'.query fam).completed = if (ns'.query fam).state = .done then 1 else 0)
    (hagain : s4 = .send ∨ s6 = .send → ¬ (s4 = .recv ∨ s6 = .recv) → ns'.Unsent)
    (hsplit : (s4 = .recv ∨ s6 = .recv) ∧ (s4 = .send ∨ s6 = .send) ↔ ns.Splits ov io) :
    SentOff ov ns io (ns', ⟨true, s4 = .recv ∨ s6 = .recv, s4 = .send ∨ s6 = .send⟩) := by
  refine ⟨hline, hactive, ?_, hdone, fun hout hin => ?_, ?_⟩
  · rw [Ns.mask, h4, h6]
  · exact hagain (of_decide_eq_true hout) (of_decide_eq_false hin)
  · simp [← hsplit]

theorem completed_attempted {q : Query} {g : Sending} (hstate : q.state = g.state)
    (hdone : q.completed = 0 + if g = .fails then 1 else 0) :
    q.completed = if q.state = .done then 1 else 0 := by
  rw [hdone, hstate]
  cases g <;> rfl

variable (hns : ns.Unsent)
include hns

theorem sendQueries_both (hneed : ns.res.needs .ip4 = true) (hready : ns.Ready .ip4)
    (hidle : (ns.query .ip6).state = .idle) (hrc : (ns.query .ip6).lastRc = 0) (io : Io) :
    SentOff ov ns io (sendQueries ov ns io) := by
  obtain ⟨hatt, hout⟩ := tryQuery_attempted ov _ hneed hready
  have htouch := (tryQuery_sent ov io.write4 ns .ip4).1
  unfold sendQueries
  generalize tryQuery ov io.write4 ns .ip4 = a at hatt hout htouch
  obtain ⟨sa, a⟩ := a
  dsimp only at hatt hout htouch ⊢
  generalize hg : ns.goes ov io.write4 .ip4 = g at hatt hout
  have hother : a.query .ip6 = ns.query .ip6 := htouch.other .ip6 (by decide)
  have hopens : a.opens ov io.write6 = ns.opens ov io.write6 := by
    unfold Ns.opens
    rw [hatt.line.isTcp, hatt.line.name]
  have hdone4 : (a.query .ip4).completed = if (a.query .ip4).state = .done then 1 else 0 :=
    completed_attempted hatt.state (by rw [hatt.completed, hns.completed])
  have hesdn : a.useEsdn = true := hatt.line.useEsdn.trans hns.useEsdn
  have hwaiting : ns.waiting = (ns.query .ip4).open := by
    simp [Ns.waiting, open_idle hidle]
  have htx : a.sock.txLen = 0 → a.sock.txOff = 0 := by
    intro hlen
    cases g with
    | sent => exact (hatt.sent rfl).2
    | waits => exact absurd (hatt.waits rfl) (by omega)
    | fails =>
      rcases hatt.fails rfl with hleft | ⟨-, hsame, hoff⟩
      · omega
      · rcases hready with ⟨-, hlt⟩ | ⟨-, -, hzero, -⟩ <;> omega
  rcases tryQuery_second ov _ (by rw [hother, hidle]) (by rw [hother, hrc]) hesdn htx with
    ⟨hpend, hsecond⟩ | ⟨hneed6, hlen, hatt6, hout6⟩
  · -- the first query is still in the buffer, or is the only one
    rw [hsecond, hout]
    dsimp only
    have hstate6 : (a.query .ip6).state = .idle := by rw [hother, hidle]
    refine sentOff_of_states ov hatt.state hstate6 hatt.line ?_ (fun fam => ?_) (fun hsend _ => ?_) ?_
    · rw [Ns.waiting, open_attempted hatt.state, open_idle hstate6, hatt.active]
      omega
    · cases fam with
      | ip4 => exact hdone4
      | ip6 => rw [hother, hns.completed, hidle, if_neg (by decide)]
    · have hwaits : g = .waits := by
        cases g with
        | waits => rfl
        | sent => exact absurd hsend (by decide)
        | fails => exact absurd hsend (by decide)
      subst hwaits
      refine ⟨hesdn, fun fam => ?_, .inr (.inl ⟨?_, hatt.state, ?_, hatt.waits rfl⟩)⟩
      · cases fam with
        | ip4 => rw [hdone4, hatt.state, if_neg (by decide)]
        | ip6 => rw [hother, hns.completed]
      · rw [htouch.res, hneed]
      · rw [hother]
        exact ⟨hidle, hrc⟩
    · refine ⟨fun h => ?_, fun ⟨_, hneed6, hsent, _⟩ => ?_⟩
      · cases g <;> exact absurd h (by decide)
      · have hzero := (hatt.sent (hg.symm.trans hsent)).1
        exact absurd (hpend (by rw [htouch.res, hneed6])) (by omega)
  · -- the first query has left the buffer
    have htouch6 := (tryQuery_sent ov io.write6 a .ip6).1
    generalize tryQuery ov io.write6 a .ip6 = b at hatt6 hout6 htouch6
    obtain ⟨sb, b⟩ := b
    have hother4 : b.query .ip4 = a.query .ip4 := htouch6.other .ip4 (by decide)
    have hstate4 : (b.query .ip4).state = g.state := by rw [hother4, hatt.state]
    have hfirst : g = .sent ∨ (g = .fails ∧ ns.opens ov io.write6 = .fails) := by
      cases g with
      | sent => exact .inl rfl
      | waits => exact absurd (hatt.waits rfl) (by omega)
      | fails =>
        rcases hatt.fails rfl with hleft | ⟨hnone, -⟩
        · omega
        · exact .inr ⟨rfl, by rw [Ns.opens, hnone]⟩
    rw [hopens] at hatt6 hout6
    rw [hout, hout6]
    refine sentOff_of_states ov hstate4 hatt6.state (hatt.line.trans hatt6.line) ?_ (fun fam => ?_)
      ?_ ?_
    · rw [Ns.waiting, open_attempted hstate4, open_attempted hatt6.state, hatt6.active, hatt.active]
      omega
    · cases fam with
      | ip4 => rw [hother4, hdone4]
      | ip6 =>
        exact completed_attempted hatt6.state (by rw [hatt6.completed, hother, hns.completed])
    · intro hsend hrecv
      rcases hfirst with hsent | ⟨hfails, hfails6⟩
      · exact absurd (.inl (by rw [hsent]; rfl)) hrecv
      · rw [hfails, hfails6] at hsend
        exact absurd hsend (by decide)
    · unfold Ns.Splits
      rw [hneed, ← htouch.res, hneed6, hg]
      rcases hfirst with hsent | ⟨hfails, hfails6⟩
      · rw [hsent]
        cases ns.opens ov io.write6 <;> decide
      · rw [hfails, hfails6]
        decide

theorem sendQueries_late (hunneeded : ns.res.needs .ip4 = false)
    (hidle : (ns.query .ip4).state = .idle)
    (hstage : (ns.res.needs .ip6 = false ∧ (ns.query .ip6).state = .idle) ∨ (ns.res.needs .ip6 =
      true ∧ ns.Ready .ip6)) (io : Io) : SentOff ov ns io (sendQueries ov ns io) := by
  have hsplit : ¬ ns.Splits ov io := fun h => Bool.false_ne_true (hunneeded.symm.trans h.1)
  have hwaiting : ns.waiting = (ns.query .ip6).open := by
    simp [Ns.waiting, open_idle hidle]
  have hdone : (ns.query .ip4).completed = if (ns.query .ip4).state = .done then 1 else 0 := by
    rw [hns.completed, hidle, if_neg (by decide)]
  unfold sendQueries
  rw [tryQuery_unneeded ov _ hunneeded]
  dsimp only
  rcases hstage with ⟨hneed, hidle6⟩ | ⟨hneed, hready⟩
  · rw [tryQuery_unneeded ov _ hneed]
    dsimp only
    refine sentOff_of_states ov hidle hidle6 (.refl ns) rfl (fun fam => ?_)
      (fun h => absurd h (by decide)) ?_
    · cases fam with
      | ip4 => exact hdone
      | ip6 => rw [hns.completed, hidle6, if_neg (by decide)]
    · exact ⟨fun h => absurd h (by decide), fun h => absurd h hsplit⟩
  · obtain ⟨hatt, hout⟩ := tryQuery_attempted ov _ hneed hready
    have htouch := (tryQuery_sent ov io.write6 ns .ip6).1
    generalize tryQuery ov io.write6 ns .ip6 = b at hatt hout htouch
    obtain ⟨sb, b⟩ := b
    generalize ns.goes ov io.write6 .ip6 = g at hatt hout
    have hother : b.query .ip4 = ns.query .ip4 := htouch.other .ip4 (by decide)
    have hidle' : (b.query .ip4).state = .idle := by rw [hother, hidle]
    rw [hout]
    refine sentOff_of_states ov hidle' hatt.state hatt.line ?_ (fun fam => ?_) (fun hsend _ => ?_) ?_
    · rw [Ns.waiting, open_attempted hatt.state, open_idle hidle', hatt.active]
      omega
    · cases fam with
      | ip4 => rw [hother, hdone]
      | ip6 => exact completed_attempted hatt.state (by rw [hatt.completed, hns.completed])
    · have hwaits : g = .waits := by
        cases g with
        | waits => rfl
        | sent => exact absurd hsend (by decide)
        | fails => exact absurd hsend (by decide)
      subst hwaits
      refine ⟨hatt.line.useEsdn.trans hns.useEsdn, fun fam => ?_,
        .inr (.inr ⟨?_, ?_, hidle', hatt.state, hatt.waits rfl⟩)⟩
      · cases fam with
        | ip4 => rw [hother, hns.completed]
        | ip6 => rw [hatt.completed, hns.completed, if_neg (by decide)]
      · rw [htouch.res, hunneeded]
      · rw [htouch.res, hneed]
    · refine ⟨fun h => ?_, fun h => absurd h hsplit⟩
      cases g <;> exact absurd h (by decide)

theorem sendQueries_sentOff (io : Io) : SentOff ov ns io (sendQueries ov ns io) := by
  rcases hns.stage with hfresh | hhalf | hlate
  · have hready : ∀ fam, ns.Ready fam := fun fam =>
      .inr ⟨(hfresh.idle fam).1, hfresh.txLen, hfresh.txOff, hns.useEsdn⟩
    cases hneed : ns.res.needs .ip4 with
    | true =>
      exact sendQueries_both ov hns hneed (hready _) (hfresh.idle _).1 (hfresh.idle _).2 io
    | false =>
      refine sendQueries_late ov hns hneed (hfresh.idle _).1 ?_ io
      cases hneed6 : ns.res.needs .ip6 with
      | true => exact .inr ⟨rfl, hready .ip6⟩
      | false => exact .inl ⟨rfl, (hfresh.idle .ip6).1⟩
  · exact sendQueries_both ov hns hhalf.needs (.inl ⟨hhalf.send, hhalf.tx⟩) hhalf.idle.1
      hhalf.idle.2 io
  · exact sendQueries_late ov hns hlate.unneeded hlate.idle
      (.inr ⟨hlate.needs, .inl ⟨hlate.send, hlate.tx⟩⟩) io

end CDbK8s.Resolv
