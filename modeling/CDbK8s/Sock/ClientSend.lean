import CDbK8s.Lib.Runs
import CDbK8s.Sock.Model

/-!
# The write path of a client

The calls of a client write the backlog and new data with one `writev` and buffer what is left. When
some bytes were accepted the backlog is advanced by the length of its unsent part, not of its sent
part, and when none were accepted the new data are dropped.
-/

namespace CDbK8s.Sock

open Base Lib.Runs List

variable {s : SimpleSock}

/-! ## The write loop -/

/-- How many of `total` bytes offered the results accept. -/
def granted : List WriteResult → Nat → Nat
  | [], _ => 0
  | .wrote n :: ws, total =>
    if min n total = 0 then 0 else min n total + granted ws (total - min n total)
  | _ :: _, _ => 0

theorem granted_le (ws : List WriteResult) (total : Nat) : granted ws total ≤ total := by
  induction ws generalizing total with
  | nil => exact Nat.zero_le _
  | cons w ws ih =>
    cases w with
    | wrote n =>
      have hrest := ih (total - min n total)
      rw [granted]
      split <;> omega
    | again => exact Nat.zero_le _
    | intr => exact Nat.zero_le _
    | error => exact Nat.zero_le _

theorem granted_zero (ws : List WriteResult) : granted ws 0 = 0 :=
  Nat.le_zero.1 (granted_le ws 0)

theorem advance_zero (iovs : List Bytes) : advance 0 iovs = iovs := by
  induction iovs with
  | nil => rfl
  | cons _ iovs ih =>
    rw [advance]
    split
    · rename_i hle
      simp [ih, length_eq_zero_iff.1 (Nat.le_zero.1 hle)]
    · rfl

theorem advance_cons (n : Nat) (iov : Bytes) (iovs : List Bytes) :
    advance n (iov :: iovs) = iov.drop n :: advance (n - iov.length) iovs := by
  rw [advance]
  split
  · rename_i hle
    rw [drop_eq_nil_of_le hle]
  · rename_i hlt
    rw [Nat.sub_eq_zero_of_le (by omega), advance_zero]

theorem flatten_advance (n : Nat) (iovs : List Bytes) :
    (advance n iovs).flatten = iovs.flatten.drop n := by
  induction iovs generalizing n with
  | nil => simp [advance]
  | cons _ iovs ih => rw [advance_cons, flatten_cons, ih, flatten_cons, drop_append]

theorem advance_advance (a b : Nat) (iovs : List Bytes) :
    advance b (advance a iovs) = advance (a + b) iovs := by
  induction iovs generalizing a b with
  | nil => rfl
  | cons iov iovs ih =>
    have hsum : a - iov.length + (b - (iov.length - a)) = a + b - iov.length := by omega
    simp [advance_cons, ih, hsum]

/-- The loop writes the first bytes of the vectors, as many as are granted. -/
theorem writeLoop_spec (ws : List WriteResult) (iovs : List Bytes) :
    (writeLoop ws iovs).2.1 = advance (granted ws iovs.flatten.length) iovs ∧
      (writeLoop ws iovs).2.2.1 = iovs.flatten.take (granted ws iovs.flatten.length) := by
  induction ws generalizing iovs with
  | nil => exact ⟨(advance_zero _).symm, rfl⟩
  | cons w ws ih =>
    by_cases hzero : iovs.flatten.length = 0
    · unfold writeLoop
      rw [hzero, granted_zero]
      exact ⟨(advance_zero _).symm, rfl⟩
    · unfold writeLoop
      rw [if_neg hzero]
      cases w with
      | wrote n =>
        dsimp only
        rw [granted]
        by_cases hn : min n iovs.flatten.length = 0
        · rw [if_pos hn, if_pos hn]
          exact ⟨(advance_zero _).symm, rfl⟩
        · rw [if_neg hn, if_neg hn]
          obtain ⟨hiovs, hsent⟩ := ih _
          rw [flatten_advance, length_drop] at hiovs hsent
          constructor
          · rw [hiovs, advance_advance]
          · rw [hsent, take_add]
      | again => exact ⟨(advance_zero _).symm, rfl⟩
      | intr => exact ⟨(advance_zero _).symm, rfl⟩
      | error => exact ⟨(advance_zero _).symm, rfl⟩

/-- How many of `total` bytes the kernel will accept from the socket. -/
def accepts (k : Kernel) (s : SimpleSock) (total : Nat) : Nat :=
  if s.sysErr || s.finSent then 0 else granted k.writes total

theorem accepts_le (k : Kernel) (s : SimpleSock) (total : Nat) : accepts k s total ≤ total := by
  unfold accepts
  split
  · exact Nat.zero_le _
  · exact granted_le _ _

theorem code_le_zero (timeout : Bool) (stop : Stop) : stop.code timeout ≤ 0 := by
  cases stop <;> cases timeout <;> decide

theorem sendBuf_stopped (s : SimpleSock) (stop : Stop) : (s.stopped stop).sendBuf = s.sendBuf := by
  cases stop <;> rfl

theorem sockWriteIovs_spec (k : Kernel) (s : SimpleSock) (iovs : List Bytes) :
    (sockWriteIovs k s iovs).2.1 = advance (accepts k s iovs.flatten.length) iovs ∧
      (sockWriteIovs k s iovs).2.2.1.accepted =
        k.accepted ++ iovs.flatten.take (accepts k s iovs.flatten.length) ∧
      (sockWriteIovs k s iovs).2.2.2.sendBuf = s.sendBuf ∧
      (if accepts k s iovs.flatten.length = 0 then (sockWriteIovs k s iovs).1 ≤ 0
        else (sockWriteIovs k s iovs).1 = accepts k s iovs.flatten.length) := by
  unfold sockWriteIovs accepts
  cases hsys : s.sysErr with
  | true =>
    refine ⟨(advance_zero _).symm, (append_nil _).symm, rfl, ?_⟩
    show SOCK_ERROR ≤ 0
    decide
  | false =>
    cases hfin : s.finSent with
    | true =>
      refine ⟨(advance_zero _).symm, (append_nil _).symm, rfl, ?_⟩
      show SOCK_CLOSED ≤ 0
      decide
    | false =>
      obtain ⟨hiovs, hsent⟩ := writeLoop_spec _ _
      have hle := granted_le k.writes iovs.flatten.length
      have hlen : (writeLoop k.writes iovs).2.2.1.length =
          granted k.writes iovs.flatten.length := by
        rw [hsent, length_take, Nat.min_eq_left hle]
      simp only [Bool.or_self, Bool.false_eq_true, if_false, hlen]
      refine ⟨hiovs, by rw [hsent], sendBuf_stopped s _, ?_⟩
      split
      · exact code_le_zero _ _
      · rfl

theorem advance_suffix (n : Nat) (iovs : List Bytes) :
    List.Forall₂ (· <:+ ·) (advance n iovs) iovs := by
  induction iovs generalizing n with
  | nil => exact .nil
  | cons iov iovs ih =>
    rw [advance_cons]
    exact .cons (drop_suffix n iov) (ih _)

/-- Whatever the kernel answers, the bytes it accepts are the first `n` of the vectors, what
is left of the vectors are the others, and the number is returned unless it is zero. -/
theorem write_iovs_bookkeeping (k : Kernel) (s : SimpleSock) (iovs : List Bytes) :
    ∃ n ≤ iovs.flatten.length,
      (sockWriteIovs k s iovs).2.2.1.accepted = k.accepted ++ iovs.flatten.take n ∧
      (sockWriteIovs k s iovs).2.1.flatten = iovs.flatten.drop n ∧
      List.Forall₂ (· <:+ ·) (sockWriteIovs k s iovs).2.1 iovs ∧
      (0 < n → (sockWriteIovs k s iovs).1 = n) := by
  obtain ⟨hiovs, haccepted, -, hrc⟩ := sockWriteIovs_spec k s _
  refine ⟨_, accepts_le k s _, haccepted, ?_, ?_, fun hpos => ?_⟩
  · rw [hiovs, flatten_advance]
  · rw [hiovs]
    exact advance_suffix _ _
  · rwa [if_neg hpos.ne'] at hrc

theorem sockWriteIovs_open (k : Kernel) (hsys : s.sysErr = false) (hfin : s.finSent = false)
    (iovs : List Bytes) :
    sockWriteIovs k s iovs =
      let r := writeLoop k.writes iovs
      (if r.2.2.1.length = 0 then r.2.2.2.code s.sendTimeout else r.2.2.1.length, r.2.1,
        { k with writes := r.1, accepted := k.accepted ++ r.2.2.1 }, s.stopped r.2.2.2) := by
  unfold sockWriteIovs
  rw [if_neg (by rw [hsys]; exact Bool.false_ne_true), if_neg (by rw [hfin]; exact Bool.false_ne_true)]

/-! ## One call -/

theorem bufferRest_spec : ∀ (rests : List (Bytes × Bool)) (b : Rwbuf), b.Wf →
    (∀ r ∈ rests, r.1.length < 2 ^ 63) →
    (bufferRest b rests).2.Wf ∧ (((bufferRest b rests).1 = 0 ∧
          (bufferRest b rests).2.unread = b.unread ++ (rests.map Prod.fst).flatten) ∨
        (bufferRest b rests).1 = SOCK_ERROR)
  | [], b, h, _ => ⟨h, .inl ⟨rfl, by simp [bufferRest]⟩⟩
  | (rest, reallocOk) :: more, b, h, hlen => by
    have hmore : ∀ r ∈ more, r.1.length < 2 ^ 63 := fun r hr => hlen r (.tail _ hr)
    unfold bufferRest
    by_cases hzero : rest.length ≠ 0
    · rw [if_pos hzero]
      obtain ⟨hwf, hres⟩ := rwbufWrite_spec h (hlen _ mem_cons_self) _
      rcases hres with ⟨hrc, hun⟩ | ⟨hrc, -⟩
      · rw [if_neg (fun hne => hne hrc)]
        obtain ⟨hwf', hres'⟩ := bufferRest_spec _ _ hwf hmore
        refine ⟨hwf', hres'.imp_left fun hok => ⟨hok.1, ?_⟩⟩
        rw [hok.2, hun]
        simp
      · rw [if_pos (by rw [hrc]; decide)]
        exact ⟨hwf, .inr hrc⟩
    · rw [if_neg hzero]
      obtain ⟨hwf', hres'⟩ := bufferRest_spec _ b h hmore
      have hnil : rest = [] := length_eq_zero_iff.1 (by omega)
      refine ⟨hwf', hres'.imp_left fun hok => ⟨hok.1, ?_⟩⟩
      rw [hok.2, hnil]
      simp

theorem length_advance (n : Nat) (iovs : List Bytes) : (advance n iovs).length = iovs.length := by
  induction iovs generalizing n with
  | nil => rfl
  | cons _ iovs ih => rw [advance_cons, length_cons, ih, length_cons]

def newData (data : List (Bytes × Bool)) : Bytes := (data.map Prod.fst).flatten

/-- What a call with new data does when the kernel accepts `n` bytes. With `n = 0` the
backlog stays as it is and the data are gone. Otherwise the backlog is advanced by what
is unsent of it, and the unsent data are appended. -/
structure Sent (k : Kernel) (s : SimpleSock) (data : Bytes) (n : Nat)
    (r : Int × Kernel × SimpleSock) : Prop where
  accepted : r.2.1.accepted = k.accepted ++ (s.sendBuf.unread ++ data).take n
  wf : r.2.2.sendBuf.Wf
  nothing : n = 0 → r.2.2.sendBuf.unread = s.sendBuf.unread
  some : 0 < n → r.1 = SOCK_ERROR ∨
    r.2.2.sendBuf.unread = s.sendBuf.unread.drop (s.sendBuf.unread.length - n) ++
      data.drop (n - s.sendBuf.unread.length)

theorem sockSendVec_spec (k : Kernel) (h : s.sendBuf.Wf) (data : List (Bytes × Bool))
    (hlen : (newData data).length < 2 ^ 63) :
    Sent k s (newData data) (accepts k s (s.sendBuf.unread.length + (newData data).length))
      (sockSendVec k s data) := by
  obtain ⟨hiovs, hacc, hbuf, hrc⟩ := sockWriteIovs_spec k s _
  rw [flatten_cons, length_append, ← newData] at hiovs hacc hrc
  unfold sockSendVec
  generalize accepts k s _ = n at *
  generalize sockWriteIovs k s _ = w at *
  by_cases hn : n = 0
  · rw [if_pos hn] at hrc
    simp only [hrc, if_true]
    refine ⟨hacc, by rw [hbuf]; exact h, fun _ => by rw [hbuf], fun hpos => by omega⟩
  · rw [if_neg hn] at hrc
    have hpos : ¬ w.1 ≤ 0 := by omega
    have hused : s.sendBuf.unread.length - n ≤ rwbufUsed s.sendBuf := by
      rw [← length_unread]
      omega
    have hhead : (w.2.1.headD []).length = s.sendBuf.unread.length - n := by
      simp [hiovs, advance_cons]
    have htail : w.2.1.tail = advance (n - s.sendBuf.unread.length) (data.map Prod.fst) := by
      simp [hiovs, advance_cons]
    have hzip : (w.2.1.tail.zip (data.map Prod.snd)).map Prod.fst = w.2.1.tail := by
      rw [map_fst_zip]
      simp [htail, length_advance]
    have hrest : w.2.1.tail.flatten = (newData data).drop (n - s.sendBuf.unread.length) := by
      rw [htail, flatten_advance, newData]
    have hshort : ∀ r ∈ w.2.1.tail.zip (data.map Prod.snd), r.1.length < 2 ^ 63 := by
      intro r hr
      have hmem : r.1 ∈ w.2.1.tail := hzip ▸ mem_map_of_mem hr
      have hsub := (sublist_flatten_of_mem hmem).length_le
      simp [hrest] at hsub
      omega
    simp only [hpos, if_false, hhead, hbuf, rwbufRdinc_eq h hused, ne_eq, not_true_eq_false]
    obtain ⟨hwf, hres⟩ := bufferRest_spec _ _ (h.skip hused) hshort
    refine ⟨hacc, hwf, fun hzero => absurd hzero hn, fun _ => ?_⟩
    rcases hres with ⟨-, hun⟩ | herr
    · right
      rw [hun, hzip, hrest, Rwbuf.unread_skip]
    · exact .inl herr

theorem sockSend_spec (k : Kernel) (h : s.sendBuf.Wf) :
    let n := accepts k s s.sendBuf.unread.length
    (sockSend k s).2.1.accepted = k.accepted ++ s.sendBuf.unread.take n ∧
      (sockSend k s).2.2.sendBuf.Wf ∧
      (sockSend k s).2.2.sendBuf.unread = s.sendBuf.unread.drop n := by
  obtain ⟨-, hacc, hbuf, hrc⟩ := sockWriteIovs_spec k s [s.sendBuf.unread]
  have hle := accepts_le k s s.sendBuf.unread.length
  rw [flatten_singleton] at hacc hrc
  unfold sockSend sockWriteData
  generalize accepts k s s.sendBuf.unread.length = n at *
  generalize sockWriteIovs k s [s.sendBuf.unread] = w at *
  by_cases hn : n = 0
  · rw [if_pos hn] at hrc
    simp only [hrc, if_true, hn, drop_zero]
    exact ⟨by rw [hacc, hn], by rw [hbuf]; exact h, by rw [hbuf]⟩
  · rw [if_neg hn] at hrc
    have hpos : ¬ w.1 ≤ 0 := by omega
    have hnat : w.1.toNat = n := by omega
    simp only [hpos, hnat, hbuf]
    refine ⟨hacc, h.skip ?_, Rwbuf.unread_skip _ _⟩
    rw [← length_unread]
    exact hle

/-! ## Runs -/

/-- The calls of a client. A string is sent as a memory block; the flags are the
outcomes of the `realloc`s that the call may need. -/
inductive SendCall where
  | mem (data : Slice) (reallocOk : Bool)
  | line (text : Slice) (reallocOk1 reallocOk2 : Bool)
  | flush

/-- The bytes that a call is given to send. -/
def SendCall.data : SendCall → Bytes
  | .mem data _ => data.bytes
  | .line text _ _ => text.bytes ++ crlf
  | .flush => []

/-- `sock_send_mem`, `sock_send_line` or `sock_send`. -/
def SendCall.run (k : Kernel) (s : SimpleSock) : SendCall → Int × Kernel × SimpleSock
  | .mem data reallocOk => sockSendMem k s data.bytes reallocOk
  | .line text reallocOk1 reallocOk2 => sockSendLine k s text.bytes reallocOk1 reallocOk2
  | .flush => sockSend k s

/-- The kernel, the socket, and the data passed to the calls so far. -/
structure SendState where
  kernel : Kernel
  sock : SimpleSock
  passed : Bytes

/-- One call. -/
def SendState.next (st : SendState) (c : SendCall) : SendState :=
  { kernel := (c.run st.kernel st.sock).2.1, sock := (c.run st.kernel st.sock).2.2
    passed := st.passed ++ c.data }

/-- The bytes accepted, followed by the unread bytes of the send buffer, are the data
passed so far. -/
def SendState.Conserved (st : SendState) : Prop :=
  st.kernel.accepted ++ st.sock.sendBuf.unread = st.passed

/-- The call does not report a hard error. -/
def SendState.NoError (st : SendState) (c : SendCall) : Prop :=
  (c.run st.kernel st.sock).1 ≠ SOCK_ERROR

/-- The kernel accepts `n` of the bytes of backlog and data: without progress there are
no data, and with progress the backlog is empty or twice as long as what is accepted. -/
def LosslessAt (backlog data n : Nat) : Prop :=
  (n = 0 → data = 0) ∧ (0 < n → backlog = 0 ∨ backlog = 2 * n)

/-- The call, in this state and with these kernel results, loses and duplicates
nothing. -/
def SendState.Lossless (st : SendState) : SendCall → Prop
  | .flush => True
  | c => LosslessAt st.sock.sendBuf.unread.length c.data.length
      (accepts st.kernel st.sock (st.sock.sendBuf.unread.length + c.data.length))

theorem resent_iff {backlog data : Bytes} {n : Nat} (hpos : 0 < n)
    (hle : n ≤ backlog.length + data.length) :
    (backlog ++ data).take n ++
        (backlog.drop (backlog.length - n) ++ data.drop (n - backlog.length)) = backlog ++ data ↔
      backlog.length = 0 ∨ backlog.length = 2 * n := by
  constructor
  · -- the lengths decide
    intro heq
    have hlen := congrArg List.length heq
    simp at hlen
    omega
  · rintro (hzero | htwo)
    · have hnil : backlog = [] := length_eq_zero_iff.1 hzero
      simp [hnil]
    · have hhalf : backlog.length - n = n := by omega
      rw [hhalf, Nat.sub_eq_zero_of_le (by omega), drop_zero,
        take_append_of_le_length (by omega), ← append_assoc, take_append_drop]

theorem Sent.conserved_iff {k : Kernel} {data : Bytes} {n : Nat} {r : Int × Kernel × SimpleSock}
    (h : Sent k s data n r) (hle : n ≤ s.sendBuf.unread.length + data.length)
    (hok : r.1 ≠ SOCK_ERROR) :
    r.2.1.accepted ++ r.2.2.sendBuf.unread = k.accepted ++ s.sendBuf.unread ++ data ↔
      LosslessAt s.sendBuf.unread.length data.length n := by
  rw [h.accepted, append_assoc, append_assoc, append_cancel_left_eq]
  by_cases hn : n = 0
  · have hiff : LosslessAt s.sendBuf.unread.length data.length n ↔ data = [] := by
      simp [LosslessAt, hn]
    rw [hiff, h.nothing hn, hn, take_zero, nil_append]
    exact ⟨fun heq => self_eq_append_right.1 heq, fun hnil => by rw [hnil, append_nil]⟩
  · have hpos : 0 < n := Nat.pos_of_ne_zero hn
    rw [(h.some hpos).resolve_left hok, resent_iff hpos hle]
    simp [LosslessAt, hn, hpos]

def SendState.Good (st : SendState) : Prop := st.sock.sendBuf.Wf

theorem sent_of_call (st : SendState) (h : st.Good) {c : SendCall} (hc : c ≠ .flush) :
    Sent st.kernel st.sock c.data
      (accepts st.kernel st.sock (st.sock.sendBuf.unread.length + c.data.length))
      (c.run st.kernel st.sock) := by
  cases c with
  | mem data reallocOk =>
    have hlt := data.size_lt
    have hnew : newData [(data.bytes, reallocOk)] = data.bytes := by simp [newData]
    have hsent := sockSendVec_spec st.kernel h [(data.bytes, reallocOk)]
    rw [hnew] at hsent
    exact hsent (by omega)
  | line text reallocOk1 reallocOk2 =>
    have hlt := text.size_lt
    have hcrlf : crlf.length = 2 := rfl
    have hnew : newData [(text.bytes, reallocOk1), (crlf, reallocOk2)] = text.bytes ++ crlf := by
      simp [newData]
    have hsent := sockSendVec_spec st.kernel h [(text.bytes, reallocOk1), (crlf, reallocOk2)]
    rw [hnew] at hsent
    exact hsent (by rw [length_append]; omega)
  | flush => exact absurd rfl hc

theorem next_good (st : SendState) (c : SendCall) (h : st.Good) : (st.next c).Good := by
  by_cases hc : c = .flush
  · subst hc
    exact (sockSend_spec _ h).2.1
  · exact (sent_of_call st h hc).wf

theorem next_conserved_iff (st : SendState) (c : SendCall) (h : st.Good) (hok : st.NoError c)
    (hcons : st.Conserved) : (st.next c).Conserved ↔ st.Lossless c := by
  by_cases hc : c = .flush
  · subst hc
    obtain ⟨hacc, -, hun⟩ := sockSend_spec _ h
    refine iff_of_true ?_ trivial
    show (sockSend st.kernel st.sock).2.1.accepted ++ (sockSend st.kernel st.sock).2.2.sendBuf.unread
      = st.passed ++ []
    rw [hacc, hun, append_assoc, take_append_drop, append_nil]
    exact hcons
  · have hiff := (sent_of_call st h hc).conserved_iff (accepts_le _ _ _) hok
    rw [show st.kernel.accepted ++ st.sock.sendBuf.unread = st.passed from hcons] at hiff
    refine hiff.trans ?_
    cases c with
    | mem _ _ => exact Iff.rfl
    | line _ _ _ => exact Iff.rfl
    | flush => exact absurd rfl hc

/-- A run from an empty send buffer in which no call reports a hard error keeps all
bytes in order, in every state, exactly when all its calls are lossless. -/
theorem conserved_iff_lossless (k : Kernel) (s : SimpleSock) (hwf : s.sendBuf.Wf)
    (hempty : s.sendBuf.unread = []) (hnone : k.accepted = []) (calls : List SendCall)
    (hok : EveryStep SendState.next SendState.NoError ⟨k, s, []⟩ calls) :
    EveryState SendState.next SendState.Conserved ⟨k, s, []⟩ calls ↔
      EveryStep SendState.next SendState.Lossless ⟨k, s, []⟩ calls := by
  refine everyState_iff_everyStep
    (fun st c h _ _ _ => next_good st c h) (fun st c h hc hcons => next_conserved_iff st c h hc hcons)
    calls ⟨k, s, []⟩ hwf hok ?_
  show k.accepted ++ s.sendBuf.unread = []
  simp [hnone, hempty]

/-- The client's socket, before the kernel answers with the results `ws`. -/
def clientStart (ws : List WriteResult) : SendState :=
  ⟨⟨ws, [], []⟩, sockStatic 256 0 8192 8192, []⟩

/-- A partial write with no backlog loses nothing. -/
theorem conserved_partial_write :
    EveryState SendState.next SendState.Conserved (clientStart [.wrote 1, .again, .wrote 1])
      [.mem ⟨[97, 98], by decide⟩ true, .flush] := by
  refine (conserved_iff_lossless _ _ ⟨by decide, by decide, by decide⟩ rfl rfl _ ?_).2 ?_
  · refine ⟨?_, ?_, trivial⟩ <;> unfold SendState.NoError <;> decide
  · refine ⟨?_, trivial, trivial⟩
    unfold SendState.Lossless LosslessAt
    decide

/-- One byte of `ab` is accepted, then all that `sock_send_mem` of `c` offers: no call
fails, and the `b` is still in the buffer after the kernel has accepted it. -/
theorem resend_after_partial_write :
    EveryStep SendState.next SendState.NoError (clientStart [.wrote 1, .again, .wrote 2])
        [.mem ⟨[97, 98], by decide⟩ true, .mem ⟨[99], by decide⟩ true] ∧
      ¬ EveryState SendState.next SendState.Conserved (clientStart [.wrote 1, .again, .wrote 2])
        [.mem ⟨[97, 98], by decide⟩ true, .mem ⟨[99], by decide⟩ true] := by
  refine ⟨⟨?_, ?_, trivial⟩, fun h => absurd h.2.2 ?_⟩
  · unfold SendState.NoError
    decide
  · unfold SendState.NoError
    decide
  · unfold EveryState SendState.Conserved
    decide

end CDbK8s.Sock
