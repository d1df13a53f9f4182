import CDbK8s.Server.Upcoming

/-!
# The end of a connection

`QUIT` queues its answer and sets `close_now`; the loop that executes the lines goes on with those
behind it, and the client is destroyed at the end of the event whether or not the answer could be
sent.

A close by the peer alone needs no condition: without `close_now` the client stays until its buffer
is empty.
-/

namespace CDbK8s.Server

open Base Sock Lib.Runs List

variable {k : Kernel}
variable {r : Kernel × SimpleSock} {s : SimpleSock}

/-! ## Flushing with any result -/

/-- A call of `sock_send` leaves the reading side alone. -/
structure Flushed (k : Kernel) (s : SimpleSock) (r : Kernel × SimpleSock) : Prop where
  reads : r.1.reads = k.reads
  recvBuf : r.2.recvBuf = s.recvBuf
  recvFin : r.2.recvFin = s.recvFin
  flags : Reads s r.2
  quiet : Quiet r.2

theorem writeLoop_open (ws : List WriteResult) (iovs : List Bytes) :
    (writeLoop ws iovs).2.2.2 ≠ .closed := by
  induction ws generalizing iovs with
  | nil =>
    unfold writeLoop
    split <;> exact Stop.noConfusion
  | cons w ws ih =>
    unfold writeLoop
    split
    · exact Stop.noConfusion
    · cases w with
      | wrote n =>
        dsimp only
        split
        · exact Stop.noConfusion
        · exact ih _
      | again => exact Stop.noConfusion
      | intr => exact Stop.noConfusion
      | error => exact Stop.noConfusion

theorem sockSend_flushed (k : Kernel) (h : Quiet s) : Flushed k s (sockSend k s).2 := by
  obtain ⟨-, -, hbuf, hrc⟩ := sockWriteIovs_spec k s [s.sendBuf.unread]
  have hle := accepts_le k s [s.sendBuf.unread].flatten.length
  have hwrite : Flushed k s (sockWriteIovs k s [s.sendBuf.unread]).2.2 := by
    unfold sockWriteIovs
    split_ifs
    · exact ⟨rfl, rfl, rfl, Reads.refl s, h⟩
    · exact ⟨rfl, rfl, rfl, Reads.refl s, h⟩
    · obtain ⟨hrecv, hflags⟩ := stopped_recvBuf s (writeLoop _ [s.sendBuf.unread]).2.2.2
      refine ⟨rfl, hrecv, ?_, hflags, h.stopped _⟩
      simp [recvFin_stopped, decide_eq_false (writeLoop_open _ _)]
  rw [flatten_singleton] at hrc hle
  unfold sockSend sockWriteData
  dsimp only
  split
  · exact hwrite
  · rename_i hpos
    -- what was accepted is dropped from the buffer
    refine ⟨hwrite.reads, hwrite.recvBuf, hwrite.recvFin,
      ⟨hwrite.flags.isUdp, hwrite.flags.closeNow, hwrite.flags.sysErr⟩, ?_⟩
    refine hwrite.quiet.skip ?_
    rw [hbuf, ← length_unread]
    split at hrc <;> omega

section
variable {D : Type} {store : Store D}

theorem doClientSend_quiet (k : Kernel) {c : Conn D} (h : Quiet c.sock) (epollOk : Bool) :
    doClientSend k c epollOk =
      ((sockSend k c.sock).2.1, { c with sock := (sockSend k c.sock).2.2 }) := by
  have hwait := (sockSend_flushed k h).quiet.waitWrite
  unfold doClientSend
  dsimp only
  rw [hwait]
  split <;> rfl

/-! ## Flushing without a refusal -/

/-- A write that fails or takes something. -/
def Willing (w : WriteResult) : Prop := w = .error ∨ ∃ n, w = .wrote (n + 1)

/-- No write is refused, and there are results enough for two flushes of a full buffer. -/
def Flowing (ws : List WriteResult) : Prop := 2 * SOCK_MAX_BUFSIZE ≤ ws.length ∧ ∀ w ∈ ws, Willing w

/-- With a result for each byte everything is written, unless the loop ends with a hard
error. It uses up one result for a byte at most. -/
theorem writeLoop_willing (ws : List WriteResult) (iovs : List Bytes)
    (hlen : iovs.flatten.length ≤ ws.length) (hws : ∀ w ∈ ws, Willing w) :
    ((writeLoop ws iovs).2.2.2 = .error ∨ granted ws iovs.flatten.length = iovs.flatten.length) ∧
      (writeLoop ws iovs).1 <:+ ws ∧
      ws.length ≤ (writeLoop ws iovs).1.length + iovs.flatten.length := by
  induction ws generalizing iovs with
  | nil =>
    have hzero : iovs.flatten.length = 0 := Nat.le_zero.1 hlen
    exact ⟨.inr hzero.symm, suffix_refl _, zero_le⟩
  | cons w ws ih =>
    by_cases hzero : iovs.flatten.length = 0
    · rw [writeLoop_nothing _ hzero, hzero]
      exact ⟨.inr (granted_zero _), suffix_refl _, le_rfl⟩
    · unfold writeLoop
      rw [if_neg hzero]
      rcases hws w mem_cons_self with rfl | ⟨n, rfl⟩
      · exact ⟨.inl rfl, suffix_cons _ _, by simp only [length_cons]; omega⟩
      · have hmin : ¬ min (n + 1) iovs.flatten.length = 0 := by omega
        have hrest := ih (advance (min (n + 1) iovs.flatten.length) iovs)
        rw [flatten_advance, length_drop] at hrest
        rw [length_cons] at hlen
        obtain ⟨hall, hsuf, hleft⟩ := hrest (by omega) (fun w' hw' => hws w' (.tail _ hw'))
        simp only [hmin, if_false, granted]
        refine ⟨?_, hsuf.trans (suffix_cons _ _), ?_⟩
        · exact hall.imp_right fun heq => by rw [heq]; omega
        · rw [length_cons]
          omega

/-- A flush without a refusal empties the buffer or finds the connection broken. -/
theorem sockSend_willing (k : Kernel) (h : Quiet s) (hlen : SOCK_MAX_BUFSIZE ≤ k.writes.length)
    (hws : ∀ w ∈ k.writes, Willing w) :
    ((sockSend k s).2.2.sysErr = true ∨ (sockSend k s).2.2.sendBuf.unread = []) ∧
      (∀ w ∈ (sockSend k s).2.1.writes, Willing w) ∧
      k.writes.length ≤ (sockSend k s).2.1.writes.length + SOCK_MAX_BUFSIZE := by
  obtain ⟨-, -, hun⟩ := sockSend_spec k h.wf
  have hunread := h.unread_le
  cases hsys : s.sysErr with
  | true =>
    have hsame : (sockSend k s).2 = (k, s) := by
      unfold sockSend sockWriteData sockWriteIovs
      rw [hsys]
      rfl
    rw [hsame]
    exact ⟨.inl hsys, hws, Nat.le_add_right _ _⟩
  | false =>
    obtain ⟨hall, hsuf, hleft⟩ := writeLoop_willing _ [s.sendBuf.unread]
      (by rw [flatten_singleton]; omega) hws
    rw [flatten_singleton] at hall hleft
    have hres : (sockSend k s).2.1.writes = (writeLoop k.writes [s.sendBuf.unread]).1 ∧
        (sockSend k s).2.2.sysErr =
          (s.stopped (writeLoop k.writes [s.sendBuf.unread]).2.2.2).sysErr := by
      unfold sockSend sockWriteData
      rw [sockWriteIovs_open k hsys h.finSent]
      dsimp only
      split_ifs <;> exact ⟨rfl, rfl⟩
    rw [hres.1, hres.2]
    refine ⟨?_, fun w hw => hws w (hsuf.subset hw), by omega⟩
    rcases hall with herror | hgranted
    · rw [herror]
      exact .inl rfl
    · right
      rw [hun, accepts, hsys, h.finSent]
      simp [hgranted]

/-! ## One event -/

/-- What an event does to a connection when it executes `lines`. -/
structure Handled (store : Store D) (k : Kernel) (c : Conn D) (lines : List Bytes) (c' : Conn D) :
    Prop where
  first : lines <+: upcoming (ahead k c.sock) (atEnd k c.sock)
  executed : c'.executed = c.executed ++ lines
  db : c'.db = (respondAll store c.db lines).2
  destroyed : c'.destroyed = c.destroyed
  isUdp : c'.sock.isUdp = c.sock.isUdp
  inOrder : InOrder c'.sock
  quiet : Quiet c'.sock
  quit : (∃ q ∈ lines, lineCmd q = .quit) → c'.sock.sysErr = true ∨ c'.sock.closeNow = true
  forced : (∀ q ∈ lines, lineCmd q ≠ .quit) → c'.sock.closeNow = true →
    c.sock.closeNow = true ∨ c'.sock.sysErr = true ∨ c'.sock.recvFin = false
  sent : (∃ q ∈ lines, lineCmd q = .quit) → Flowing k.writes →
    c'.sock.sysErr = true ∨ c'.sock.sendBuf.unread = []

/-- Reading: a `QUIT` and an error of the descriptor close by force, the end of the
stream does not. -/
theorem doClientRecv_read (store : Store D) (k : Kernel) {c : Conn D} (hudp : c.sock.isUdp = false)
    (h : InOrder c.sock) (reallocOk : Bool) :
    ∃ lines, let c' := (doClientRecv store k c reallocOk).2
      lines <+: upcoming (ahead k c.sock) (atEnd k c.sock) ∧
      c'.executed = c.executed ++ lines ∧ c'.db = (respondAll store c.db lines).2 ∧
      c'.destroyed = c.destroyed ∧ c'.sock.isUdp = c.sock.isUdp ∧ InOrder c'.sock ∧
      ((∃ q ∈ lines, lineCmd q = .quit) → c'.sock.sysErr = true ∨ c'.sock.closeNow = true) ∧
      ((∀ q ∈ lines, lineCmd q ≠ .quit) → c'.sock.closeNow = true →
        c.sock.closeNow = true ∨ c'.sock.sysErr = true ∨ c'.sock.recvFin = false) := by
  obtain ⟨lines, hread⟩ := recvLoop_read _ _ _ k c hudp h
  refine ⟨lines, ?_⟩
  unfold doClientRecv
  generalize recvLoop store reallocOk _ k c = r at hread
  have ht := hread.taken
  dsimp only
  split
  · rename_i hrc
    refine ⟨hread.first, ht.executed, ht.db, ht.destroyed, ht.isUdp, hread.inOrder, ?_, ?_⟩
    · intro hquit
      refine (ht.quit hquit).imp_right fun hclose => ?_
      show (r.2.2.sock.closeNow || (r.1 != SOCK_CLOSED)) = true
      simp [hclose]
    · intro hplain hclose
      have hor : (r.2.2.sock.closeNow || (r.1 != SOCK_CLOSED)) = true := hclose
      rcases Bool.or_eq_true_iff.1 hor with hbefore | hforce
      · exact .inl ((ht.plain hplain).symm.trans hbefore)
      · exact .inr (hread.failed hrc.1 (bne_iff_ne.1 hforce))
  · refine ⟨hread.first, ht.executed, ht.db, ht.destroyed, ht.isUdp, hread.inOrder, ht.quit, ?_⟩
    intro hplain hclose
    exact .inl ((ht.plain hplain).symm.trans hclose)

theorem Flushed.ahead (h : Flushed k s r) : ahead r.1 r.2 = Server.ahead k s := by
  unfold Server.ahead
  rw [h.recvBuf, h.recvFin, h.reads]

theorem Flushed.atEnd (h : Flushed k s r) : atEnd r.1 r.2 = Server.atEnd k s := by
  unfold Server.atEnd
  rw [h.recvFin, h.reads]

theorem Flushed.inOrder (h : Flushed k s r) (horder : InOrder s) : InOrder r.2 := by
  unfold InOrder
  rw [h.recvBuf]
  exact horder

theorem sendPhase_flushed (k : Kernel) {c : Conn D} (h : Quiet c.sock) (mask : Mask)
    (epollOk : Bool) :
    ∃ k' s', sendPhase k c mask epollOk = (k', { c with sock := s' }) ∧ Flushed k c.sock (k', s') ∧
      (Flowing k.writes → SOCK_MAX_BUFSIZE ≤ k'.writes.length ∧ ∀ w ∈ k'.writes, Willing w) := by
  unfold sendPhase
  split
  · refine ⟨_, _, doClientSend_quiet k h _, sockSend_flushed k h, ?_⟩
    intro hflow
    have hlen := hflow.1
    obtain ⟨-, hall, hleft⟩ := sockSend_willing k h (by omega) hflow.2
    exact ⟨by omega, hall⟩
  · refine ⟨k, c.sock, rfl, ⟨rfl, rfl, rfl, Reads.refl _, h⟩, ?_⟩
    intro hflow
    have hlen := hflow.1
    exact ⟨by omega, hflow.2⟩

theorem event_handled (store : Store D) (k : Kernel) {c : Conn D} (hudp : c.sock.isUdp = false)
    (horder : InOrder c.sock) (hquiet : Quiet c.sock) (mask : Mask) (reallocOk epollOk : Bool) :
    ∃ lines, Handled store k c lines
      (recvPhase store (sendPhase k c mask epollOk).1 (sendPhase k c mask epollOk).2 mask reallocOk
        epollOk).2 := by
  obtain ⟨k1, s1, hsend, hflush, hflow⟩ := sendPhase_flushed k hquiet _ _
  rw [hsend]
  have horder1 := hflush.inOrder horder
  unfold recvPhase
  split
  · obtain ⟨lines, hfirst, hexec, hdb, hdest, hudp2, horder2, hquit, hforced⟩ :=
      doClientRecv_read _ _ (c := { c with sock := s1 }) (hflush.flags.isUdp.trans hudp) horder1
        reallocOk
    obtain ⟨hquiet2, hwrites⟩ := quiet_doClientRecv _ _ { c with sock := s1 } hflush.quiet reallocOk
    have hahead : ahead k1 s1 = ahead k c.sock := hflush.ahead
    have hend : atEnd k1 s1 = atEnd k c.sock := hflush.atEnd
    rw [hahead, hend] at hfirst
    generalize doClientRecv store k1 { c with sock := s1 } reallocOk = r at *
    have hlast := sockSend_flushed r.1 hquiet2
    have hdrain := sockSend_willing r.1 hquiet2
    rw [doClientSend_quiet r.1 hquiet2]
    refine ⟨lines, hfirst, hexec, hdb, hdest, hlast.flags.isUdp.trans (hudp2.trans hflush.flags.isUdp),
      hlast.inOrder horder2, hlast.quiet, ?_, ?_, ?_⟩
    · intro hq
      exact (hquit hq).imp hlast.flags.sysErr (fun hclose => hlast.flags.closeNow.trans hclose)
    · intro hplain hclose
      have hclose2 : r.2.sock.closeNow = true := hlast.flags.closeNow.symm.trans hclose
      rcases hforced hplain hclose2 with hbefore | herr | hopen
      · exact .inl (hflush.flags.closeNow.symm.trans hbefore)
      · exact .inr (.inl (hlast.flags.sysErr herr))
      · exact .inr (.inr (hlast.recvFin.trans hopen))
    · intro _ hws
      rw [hwrites] at hdrain
      exact (hdrain (hflow hws).1 (hflow hws).2).1
  · -- no line is read
    refine ⟨[], nil_prefix, (append_nil _).symm, rfl, rfl, hflush.flags.isUdp, horder1,
      hflush.quiet, ?_, ?_, ?_⟩
    · rintro ⟨q, hq, -⟩
      cases hq
    · intro _ hclose
      exact .inl (hflush.flags.closeNow.symm.trans hclose)
    · rintro ⟨q, hq, -⟩
      cases hq

/-! ## Runs -/

/-- The lines that an event brings. -/
def Conn.upcoming (c : Conn D) (ev : Event) : List Bytes :=
  Server.upcoming (ahead ⟨ev.writes, ev.reads, []⟩ c.sock) (atEnd ⟨ev.writes, ev.reads, []⟩ c.sock)

/-- Only the last of some lines can be a `QUIT`. -/
def QuitLast (lines : List Bytes) : Prop := ∀ q ∈ lines.dropLast, lineCmd q ≠ .quit

/-- A connection that is not destroyed has executed no `QUIT` and is not closing by
force; its buffers are in order. -/
structure Conn.Serving (c : Conn D) : Prop where
  isUdp : c.sock.isUdp = false
  inOrder : InOrder c.sock
  quiet : Quiet c.sock
  closeNow : c.sock.closeNow = false
  noQuit : ∀ q ∈ c.executed, lineCmd q ≠ .quit

theorem sockCanclose_of_err (h : s.sysErr = true ∨ s.closeNow = true) : sockCanclose s = true := by
  unfold sockCanclose sockMustclose
  rcases h with h | h <;> simp [h]

theorem Conn.Serving.event {c : Conn D} (h : c.Serving) (hd : c.destroyed = false) (ev : Event) :
    ∃ lines c', Handled store ⟨ev.writes, ev.reads, []⟩ c lines c' ∧
      c.handle store ev = { c' with destroyed := sockCanclose c'.sock } := by
  obtain ⟨lines, hh⟩ := event_handled _ ⟨ev.writes, ev.reads, []⟩ h.isUdp h.inOrder h.quiet
    ev.mask ev.reallocOk ev.epollOk
  refine ⟨lines, _, hh, ?_⟩
  unfold Conn.handle clientRecvEvent
  simp [hh.destroyed, hd]

theorem Conn.Serving.handle {c : Conn D} (h : c.destroyed = false → c.Serving) (ev : Event) :
    (c.handle store ev).destroyed = false → (c.handle store ev).Serving := by
  cases hd : c.destroyed with
  | true =>
    intro hfalse
    rw [Conn.handle, if_pos hd, hd] at hfalse
    cases hfalse
  | false =>
    have hs := h hd
    obtain ⟨lines, c', hh, hev⟩ := @Conn.Serving.event _ _ _ hs hd ev
    rw [hev]
    intro hstay
    have hclear : ¬ (c'.sock.sysErr = true ∨ c'.sock.closeNow = true) := by
      intro hbad
      exact Bool.false_ne_true (hstay.symm.trans (sockCanclose_of_err hbad))
    refine ⟨hh.isUdp.trans hs.isUdp, hh.inOrder, hh.quiet,
      Bool.eq_false_iff.2 fun hclose => hclear (.inr hclose), ?_⟩
    intro q hq
    rw [show c'.executed = c.executed ++ lines from hh.executed] at hq
    rcases mem_append.1 hq with hold | hnew
    · exact hs.noQuit q hold
    · exact fun hquit => hclear (hh.quit ⟨q, hnew, hquit⟩)

/-- A client that could be registered, before the prompt is sent. -/
def registered (db : D) (recvOk sendOk : Bool) : Conn D :=
  { db, sock := { clientSock recvOk sendOk with isEpoll := true }, sndPrompt := true
    interest := .rd, executed := [], destroyed := false }

theorem registered_serving (db : D) (recvOk sendOk : Bool) :
    (registered db recvOk sendOk).Serving := by
  have hquiet : Quiet { clientSock recvOk sendOk with isEpoll := true } :=
    (quiet_clientSock recvOk _).congr rfl rfl rfl
  have horder : InOrder (clientSock recvOk sendOk) := by
    cases recvOk <;> exact zero_le
  refine ⟨rfl, horder, hquiet, rfl, ?_⟩
  intro q hq
  cases hq

theorem Conn.Serving.greeted {c : Conn D} (h : c.Serving) (k : Kernel) (reallocOk : Bool) :
    let c' := (doClientSend k (sendPrompt c reallocOk).2 true).2
    c'.executed = c.executed ∧ c'.db = c.db ∧ c'.destroyed = c.destroyed ∧ c'.Serving := by
  have hprompt := quiet_sendPrompt c h.quiet reallocOk
  have hanswer := sendPrompt_answered c reallocOk
  have hflush := sockSend_flushed k hprompt
  rw [doClientSend_quiet k hprompt]
  refine ⟨hanswer.executed, hanswer.db, hanswer.destroyed, ?_, ?_, hflush.quiet, ?_, ?_⟩
  · exact hflush.flags.isUdp.trans (hanswer.reads.isUdp.trans h.isUdp)
  · refine hflush.inOrder ?_
    unfold InOrder
    rw [hanswer.recvBuf]
    exact h.inOrder
  · exact hflush.flags.closeNow.trans (hanswer.reads.closeNow.trans h.closeNow)
  · intro q hq
    exact h.noQuit q (hanswer.executed ▸ hq)

theorem accepted_serving (db : D) (a : Accept) :
    (accepted db a).executed = [] ∧ (accepted db a).db = db ∧
      ((accepted db a).destroyed = true → (accepted db a).sock.sysErr = true) ∧
      ((accepted db a).destroyed = false → (accepted db a).Serving) := by
  unfold accepted
  cases a.epollOk with
  | false =>
    refine ⟨rfl, rfl, fun _ => rfl, ?_⟩
    intro hfalse
    cases hfalse
  | true =>
    obtain ⟨hexec, hdb, hdest, hserving⟩ := (registered_serving db _ _).greeted ⟨a.writes, [], []⟩ _
    refine ⟨hexec, hdb, ?_, fun _ => hserving⟩
    intro htrue
    exact absurd (hdest.symm.trans htrue) Bool.false_ne_true

/-! ## Nothing after `QUIT` -/

/-- No line is executed after a `QUIT`, and the database is the one that the executed
lines leave. -/
def Conn.QuitFinal (store : Store D) (db : D) (c : Conn D) : Prop :=
  QuitLast c.executed ∧ c.db = (respondAll store db c.executed).2

/-- The event brings no line behind a `QUIT`. -/
def Conn.QuitAlone (c : Conn D) (ev : Event) : Prop :=
  c.destroyed = false → QuitLast (c.upcoming ev)

theorem QuitLast.of_first {xs ys : List Bytes} (h : QuitLast ys) (hfirst : xs <+: ys) :
    QuitLast xs := by
  obtain ⟨more, rfl⟩ := hfirst
  intro q hq
  by_cases hnil : more = []
  · rw [hnil, append_nil] at h
    exact h q hq
  · refine h q ?_
    rw [dropLast_append_of_ne_nil hnil]
    exact mem_append_left _ (dropLast_subset xs hq)

theorem quitLast_append {xs ys : List Bytes} (hxs : ∀ q ∈ xs, lineCmd q ≠ .quit)
    (hys : QuitLast ys) : QuitLast (xs ++ ys) := by
  intro q hq
  by_cases hnil : ys = []
  · rw [hnil, append_nil] at hq
    exact hxs q (dropLast_subset xs hq)
  · rw [dropLast_append_of_ne_nil hnil] at hq
    rcases mem_append.1 hq with hx | hy
    · exact hxs q hx
    · exact hys q hy

theorem Conn.QuitFinal.handle {db : D} {c : Conn D} (hserving : c.destroyed = false → c.Serving)
    (h : c.QuitFinal store db) {ev : Event} (hev : c.QuitAlone ev) :
    (c.handle store ev).QuitFinal store db := by
  cases hd : c.destroyed with
  | true =>
    rw [Conn.handle, if_pos hd]
    exact h
  | false =>
    have hs := hserving hd
    obtain ⟨lines, c', hh, hhandle⟩ := @Conn.Serving.event _ _ _ hs hd ev
    rw [hhandle]
    refine ⟨?_, ?_⟩
    · rw [hh.executed]
      exact quitLast_append hs.noQuit ((hev hd).of_first hh.first)
    · rw [hh.executed, hh.db, respondAll_append, ← h.2]

/-- In every run of a connection in which no event brings a line behind a `QUIT`, no line
is executed after a `QUIT`. -/
theorem quit_is_final (store : Store D) (db : D) (a : Accept) (evs : List Event)
    (hevs : EveryStep (Conn.handle store) Conn.QuitAlone (accepted db a) evs) :
    EveryState (Conn.handle store) (Conn.QuitFinal store db) (accepted db a) evs := by
  obtain ⟨hexec, hdb, -, hserving⟩ := accepted_serving db a
  refine everyState_of_step
    (I := fun c => (c.destroyed = false → c.Serving) ∧ c.QuitFinal store db) ?_
    (fun _ h => h.2) evs _ ⟨hserving, ?_⟩ hevs
  · intro c ev h hev
    exact ⟨Conn.Serving.handle h.1 ev, h.2.handle h.1 hev⟩
  · refine ⟨?_, ?_⟩
    · rw [hexec]
      intro q hq
      cases hq
    · rw [hexec]
      exact hdb

/-! ## Closing gracefully -/

/-- A connection that was closed by `QUIT` or by its peer, without an error, is destroyed
only with an empty send buffer. -/
def Conn.Graceful (c : Conn D) : Prop :=
  c.destroyed = true → c.sock.sysErr = false →
    ((∃ q ∈ c.executed, lineCmd q = .quit) ∨ c.sock.recvFin = true) → c.sock.sendBuf.unread = []

/-- While an event that brings a `QUIT` is handled the kernel refuses no write. -/
def Conn.QuitFlows (c : Conn D) (ev : Event) : Prop :=
  c.destroyed = false → (∃ q ∈ c.upcoming ev, lineCmd q = .quit) → Flowing ev.writes

theorem closes_because (h : sockCanclose s = true) (hfin : s.finSent = false)
    (herr : s.sysErr = false) : s.closeNow = true ∨ s.sendBuf.unread = [] := by
  unfold sockCanclose sockMustclose sockIsclosed at h
  rw [hfin, herr] at h
  simp only [Bool.false_or, Bool.and_false, Bool.or_false, Bool.or_eq_true, Bool.and_eq_true,
    beq_iff_eq] at h
  refine h.imp_right fun hempty => length_eq_zero_iff.1 ?_
  rw [length_unread]
  exact hempty.2

theorem Conn.Graceful.handle {c : Conn D} (hserving : c.destroyed = false → c.Serving)
    (h : c.Graceful) {ev : Event} (hev : c.QuitFlows ev) : (c.handle store ev).Graceful := by
  cases hd : c.destroyed with
  | true =>
    rw [Conn.handle, if_pos hd]
    exact h
  | false =>
    have hs := hserving hd
    obtain ⟨lines, c', hh, hhandle⟩ := @Conn.Serving.event _ _ _ hs hd ev
    rw [hhandle]
    intro hcan herr hcause
    have herr' : c'.sock.sysErr = false := herr
    rcases closes_because hcan hh.quiet.finSent herr' with hclose | hempty
    · by_cases hquit : ∃ q ∈ lines, lineCmd q = .quit
      · -- closed by `QUIT`: the last flush of the event was not refused
        obtain ⟨q, hq, hqq⟩ := hquit
        rcases hh.sent ⟨q, hq, hqq⟩ (hev hd ⟨q, hh.first.subset hq, hqq⟩) with hbad | hempty
        · rw [herr'] at hbad
          cases hbad
        · exact hempty
      · -- closed by force without `QUIT`: not because of the peer
        have hplain : ∀ q ∈ lines, lineCmd q ≠ .quit := fun q hq hqq => hquit ⟨q, hq, hqq⟩
        rcases hh.forced hplain hclose with hbefore | hbad | hopen
        · rw [hs.closeNow] at hbefore
          cases hbefore
        · rw [herr'] at hbad
          cases hbad
        · rcases hcause with ⟨q, hq, hqq⟩ | hfin
          · have hmem : q ∈ c.executed ++ lines := hh.executed ▸ hq
            rcases mem_append.1 hmem with hold | hnew
            · exact absurd hqq (hs.noQuit q hold)
            · exact absurd hqq (hplain q hnew)
          · exact absurd (hopen.symm.trans hfin) Bool.false_ne_true
    · exact hempty

/-- In every run of a connection in which the kernel refuses no write of an event that
brings a `QUIT`, the connection is closed gracefully. -/
theorem close_is_graceful (store : Store D) (db : D) (a : Accept) (evs : List Event)
    (hevs : EveryStep (Conn.handle store) Conn.QuitFlows (accepted db a) evs) :
    EveryState (Conn.handle store) Conn.Graceful (accepted db a) evs := by
  obtain ⟨-, -, hgone, hserving⟩ := accepted_serving db a
  refine everyState_of_step (I := fun c => (c.destroyed = false → c.Serving) ∧ c.Graceful) ?_
    (fun _ h => h.2) evs _ ⟨hserving, ?_⟩ hevs
  · intro c ev h hev
    exact ⟨Conn.Serving.handle h.1 ev, h.2.handle h.1 hev⟩
  · intro hdestroyed herr
    rw [hgone hdestroyed] at herr
    cases herr

end

/-! ## Connections that end -/

/-- A store of one value that a `SET` replaces. -/
def cellStore : Store Bytes :=
  { dbSet := fun _ _ val => (0, val), dbGet := fun _ _ => none, dbDel := fun db _ => (0, db) }

/-- The client sends `bytes`; the kernel answers the flushes with `ws`. -/
def sendEvent (bytes : Bytes) (ws : List WriteResult) : Event :=
  { mask := ⟨true, false, false, false, false⟩, reads := [.data bytes], writes := ws
    reallocOk := true, epollOk := true }

/-- `QUIT` and a line feed. -/
def quitLine : Bytes := [81, 85, 73, 84, 10]

/-- `SET k v` and a line feed. -/
def setLine : Bytes := [83, 69, 84, 32, 107, 32, 118, 10]

/-- A `QUIT` behind a `SET`, with another `SET` in a later read, is final. -/
theorem quit_alone_is_final :
    EveryState (Conn.handle cellStore) (Conn.QuitFinal cellStore []) (accepted [] plainAccept)
      [sendEvent (setLine ++ quitLine) [.wrote 8192], sendEvent setLine [.wrote 8192]] := by
  refine quit_is_final _ [] _ _ ⟨fun _ => ?_, fun _ => ?_, trivial⟩
  · unfold QuitLast
    decide +kernel
  · unfold QuitLast
    decide +kernel

/-- `QUIT` and `SET k v` in one read: the `SET` is executed and changes the database. -/
theorem set_after_quit :
    ¬ EveryState (Conn.handle cellStore) (Conn.QuitFinal cellStore []) (accepted [] plainAccept)
      [sendEvent (quitLine ++ setLine) [.wrote 8192]] := by
  intro h
  have hlast := h.2.1
  unfold QuitLast at hlast
  revert hlast
  decide +kernel

/-- A `QUIT` whose answer the kernel takes byte by byte. -/
theorem quit_bytewise_is_graceful :
    EveryState (Conn.handle emptyStore) Conn.Graceful (accepted () plainAccept)
      [sendEvent quitLine (replicate 16384 (.wrote 1))] := by
  refine close_is_graceful _ () _ _ ⟨fun _ _ => ⟨?_, ?_⟩, trivial⟩
  · exact le_of_eq (length_replicate).symm
  · intro w hw
    exact .inr ⟨0, eq_of_mem_replicate hw⟩

/-- The answer to `QUIT` would block: the client is destroyed with the answer in its
buffer, and no error is set. -/
theorem quit_answer_lost :
    ¬ EveryState (Conn.handle emptyStore) Conn.Graceful (accepted () plainAccept)
      [sendEvent quitLine [.again]] := by
  intro h
  have hlost := h.2
  revert hlost
  unfold EveryState Conn.Graceful
  decide +kernel

end CDbK8s.Server
