import CDbK8s.Server.Session

/-!
# How a stream is read
-/

namespace CDbK8s.Server

open Base Sock List

variable {part : Bytes} {len : Nat}
variable {bytes content stream : Bytes} {left reads : List ReadResult}

/-! ## The reads that deliver a stream -/

/-- The results of the reads deliver the stream and its end. Between two parts a read may
find nothing. -/
inductive Script : List ReadResult → Bytes → Prop where
  | fin : Script [.data []] []
  | again {reads : List ReadResult} {stream : Bytes} :
      Script reads stream → Script (.again :: reads) stream
  | data {part : Bytes} {reads : List ReadResult} {stream : Bytes} (hne : part ≠ []) :
      Script reads stream → Script (.data part :: reads) (part ++ stream)

/-- A call of `sock_recv` that reads something. -/
def Round (reads : List ReadResult) (bytes : Bytes) (left : List ReadResult) : Prop :=
  bytes ≠ [] ∧ ∃ len stop, 0 < len ∧ readLoop false reads len = (left, bytes, stop)

/-- The calls of `sock_recv` in one event, up to the last that reads something. -/
inductive Rounds : List ReadResult → Bytes → List ReadResult → Prop where
  | stop (reads : List ReadResult) : Rounds reads [] reads
  | more {reads next left : List ReadResult} {bytes rest : Bytes} :
      Round reads bytes next → Rounds next rest left → Rounds reads (bytes ++ rest) left

theorem Script.ne_nil (h : Script reads stream) : reads ≠ [] := by
  cases h <;> exact cons_ne_nil _ _

theorem Script.readable (h : Script reads stream) : readable reads = stream.length := by
  induction h with
  | fin => rfl
  | again _ ih => simpa [Server.readable] using ih
  | data _ _ ih => simpa [Server.readable] using ih

theorem readLoop_zero (hne : reads ≠ []) : readLoop false reads 0 = (reads, [], .done) := by
  cases reads with
  | nil => exact absurd rfl hne
  | cons r _ => simp [readLoop]

theorem readLoop_again (reads : List ReadResult) (hlen : 0 < len) :
    readLoop false (.again :: reads) len = (reads, [], .again) := by
  rw [readLoop, if_neg (by omega)]

theorem readLoop_eof (reads : List ReadResult) (hlen : 0 < len) :
    readLoop false (.data [] :: reads) len = (reads, [], .closed) := by
  rw [readLoop, if_neg (by omega)]
  rfl

theorem readLoop_part (hne : part ≠ []) (reads : List ReadResult) (hlen : 0 < len) :
    readLoop false (.data part :: reads) len =
      if part.length > len then (.data (part.drop len) :: reads, part.take len, .done)
      else
        let r := readLoop false reads (len - part.length)
        (r.1, part ++ r.2.1, r.2.2) := by
  have hpart : part.length ≠ 0 := fun hzero => hne (length_eq_zero_iff.1 hzero)
  rw [readLoop, if_neg (by omega)]
  rw [if_neg hpart, if_neg Bool.false_ne_true]

/-- A read loop either sees the end of the stream, with all that was left of it, or
leaves the reads of what follows. -/
theorem readLoop_script (h : Script reads stream) (hlen : 0 < len) :
    ∃ left bytes stop, readLoop false reads len = (left, bytes, stop) ∧ bytes.length ≤ len ∧
      left.length ≤ reads.length ∧
      ((stop = .closed ∧ left = [] ∧ bytes = stream) ∨
        ((stop = .done ∨ stop = .again) ∧ ∃ rest, stream = bytes ++ rest ∧ Script left rest)) := by
  induction h generalizing len with
  | fin =>
    exact ⟨[], [], .closed, readLoop_eof [] hlen, zero_le, zero_le, .inl ⟨rfl, rfl, rfl⟩⟩
  | @again reads stream h _ =>
    exact ⟨reads, [], .again, readLoop_again _ hlen, zero_le, Nat.le_succ _,
      .inr ⟨.inr rfl, stream, rfl, h⟩⟩
  | @data part reads stream hne h ih =>
    rw [readLoop_part hne _ hlen]
    by_cases hlong : part.length > len
    · -- the part itself does not fit
      rw [if_pos hlong]
      refine ⟨_, _, _, rfl, length_take_le _ _, le_rfl,
        .inr ⟨.inl rfl, part.drop len ++ stream, ?_, Script.data ?_ h⟩⟩
      · simp [← append_assoc]
      · intro hnil
        have := congrArg List.length hnil
        simp at this
        omega
    · rw [if_neg hlong]
      by_cases hexact : len - part.length = 0
      · rw [hexact, readLoop_zero h.ne_nil]
        dsimp only
        rw [append_nil]
        exact ⟨reads, part, .done, rfl, by omega, Nat.le_succ _, .inr ⟨.inl rfl, stream, rfl, h⟩⟩
      · obtain ⟨left, bytes, stop, hloop, hbytes, hleft, hcase⟩ := @ih (len - part.length) (by omega)
        rw [hloop]
        refine ⟨left, part ++ bytes, stop, rfl, by rw [length_append]; omega,
          Nat.le_succ_of_le hleft, ?_⟩
        rcases hcase with ⟨hstop, hnil, rfl⟩ | ⟨hstop, rest, rfl, hscript⟩
        · exact .inl ⟨hstop, hnil, rfl⟩
        · exact .inr ⟨hstop, rest, (append_assoc _ _ _).symm, hscript⟩

theorem readLoop_ne_nil (hne : part ≠ []) (hlen : 0 < len) {stop : Stop}
    (h : readLoop false (.data part :: reads) len = (left, bytes, stop)) : bytes ≠ [] := by
  have hpos := length_pos_iff.2 hne
  rw [readLoop_part hne _ hlen] at h
  rintro rfl
  split at h
  · have := congrArg (fun r => r.2.1.length) h
    simp only [length_take, length_nil] at this
    omega
  · have := congrArg (fun r => r.2.1.length) h
    simp only [length_append, length_nil] at this
    omega

theorem not_round_nil : ¬ Round [] bytes left := by
  rintro ⟨hne, len, stop, -, hloop⟩
  cases hloop
  exact hne rfl

theorem not_round_again : ¬ Round (.again :: reads) bytes left := by
  rintro ⟨hne, len, stop, hlen, hloop⟩
  rw [readLoop_again _ hlen] at hloop
  cases hloop
  exact hne rfl

section
variable (h : Rounds reads bytes left)
include h

theorem Rounds.eq_of_nil (hnil : bytes = []) : left = reads := by
  cases h with
  | stop => rfl
  | more hround _ => exact absurd (append_eq_nil_iff.1 hnil).1 hround.1

theorem Rounds.script (hs : Script reads stream) : ∃ rest, stream = bytes ++ rest ∧
      (left ≠ [] → Script left rest ∧ left.length ≤ reads.length) := by
  induction h generalizing stream with
  | stop _ => exact ⟨stream, rfl, fun _ => ⟨hs, le_rfl⟩⟩
  | more hround hrounds ih =>
    obtain ⟨-, len, stop, hlen, hloop⟩ := hround
    obtain ⟨next, bytes, stop', hloop', -, hlength, hcase⟩ := readLoop_script hs hlen
    rw [hloop] at hloop'
    obtain ⟨rfl, rfl, rfl⟩ : _ ∧ _ ∧ _ := by simpa using hloop'
    rcases hcase with ⟨-, rfl, rfl⟩ | ⟨-, rest, rfl, hscript⟩
    · -- nothing can be read behind the end
      cases hrounds with
      | stop => exact ⟨[], by simp, fun hne => absurd rfl hne⟩
      | more hround => exact absurd hround not_round_nil
    · obtain ⟨rest', rfl, hleft⟩ := ih hscript
      refine ⟨rest', (append_assoc _ _ _).symm, fun hne => ?_⟩
      exact ⟨(hleft hne).1, le_trans (hleft hne).2 hlength⟩

omit h in
theorem Rounds.again {reads left : List ReadResult} {bytes stream : Bytes}
    (h : Rounds reads bytes (.again :: left)) (hs : Script reads stream) :
    ∃ rest, stream = bytes ++ rest ∧ Script left rest ∧ left.length < reads.length := by
  obtain ⟨rest, hstream, hleft⟩ := h.script hs
  obtain ⟨hscript, hlength⟩ := hleft (cons_ne_nil _ _)
  cases hscript with
  | again hscript => exact ⟨rest, hstream, hscript, hlength⟩

/-- Two reads in a row that find nothing end an event: what is read before is the part in
front of them. -/
theorem Rounds.barrier {tail : List ReadResult} (hne : part ≠ [])
    (hreads : reads = .data part :: .again :: .again :: tail) :
    (∃ rest, rest ≠ [] ∧ part = bytes ++ rest ∧ left = .data rest :: .again :: .again :: tail) ∨
      (bytes = part ∧ (left = .again :: .again :: tail ∨ left = .again :: tail)) := by
  induction h generalizing part with
  | stop reads => exact .inl ⟨part, hne, rfl, hreads⟩
  | @more _ next _ bytes _ hround hrounds ih =>
    subst hreads
    obtain ⟨-, len, stop, hlen, hloop⟩ := hround
    rw [readLoop_part hne _ hlen] at hloop
    split at hloop
    · -- the part is cut
      rename_i hlong
      obtain ⟨rfl, rfl, rfl⟩ : _ ∧ _ ∧ _ := by simpa using hloop
      have hdrop : part.drop len ≠ [] := by
        intro hnil
        have := congrArg List.length hnil
        simp at this
        omega
      rcases ih hdrop rfl with ⟨rest, hrest, hpart, hleft⟩ | ⟨rfl, hleft⟩
      · refine .inl ⟨rest, hrest, ?_, hleft⟩
        simp [← hpart]
      · exact .inr ⟨take_append_drop len _, hleft⟩
    · -- all of it is read, and nothing more can be
      have hnext : bytes = part ∧ (next = .again :: .again :: tail ∨ next = .again :: tail) := by
        by_cases hexact : len - part.length = 0
        · rw [hexact] at hloop
          cases hloop
          exact ⟨append_nil _, .inl rfl⟩
        · rw [readLoop_again _ (by omega)] at hloop
          cases hloop
          exact ⟨append_nil _, .inr rfl⟩
      obtain ⟨rfl, hnext⟩ := hnext
      cases hrounds with
      | stop => exact .inr ⟨append_nil _, hnext⟩
      | more hround =>
        rcases hnext with rfl | rfl
        · exact absurd hround not_round_again
        · exact absurd hround not_round_again

end

/-- A receive buffer between two reads: what it holds stands at the start. -/
structure Ready (b : Rwbuf) (content : Bytes) : Prop extends InBuf b content where
  ridx : b.ridx = 0

theorem Ready.data {b : Rwbuf} {content : Bytes} (h : Ready b content) : b.data = content := by
  have hunread := h.unread
  unfold Rwbuf.unread at hunread
  rwa [h.ridx, drop_zero] at hunread

theorem Ready.space {b : Rwbuf} (h : Ready b content) :
    rwbufSpace b = SOCK_INIT_BUFSIZE - content.length := by
  rw [rwbufSpace_eq h.wf.widx_le, Rwbuf.widx, h.size, h.data]

theorem ready_reset {b : Rwbuf} (h : InBuf b content) : Ready { b with data := [], ridx := 0 } [] :=
  ⟨⟨rfl, ⟨le_rfl, zero_le, h.wf.size_lt⟩, h.size⟩, rfl⟩

theorem Ready.received {b : Rwbuf} (h : Ready b content)
    (hfit : content.length + bytes.length ≤ SOCK_INIT_BUFSIZE) :
    InBuf { b with data := b.data ++ bytes } (content ++ bytes) := by
  refine ⟨?_, ⟨?_, ?_, ?_⟩, h.size⟩
  · show (b.data ++ bytes).drop b.ridx = content ++ bytes
    simp [h.ridx, h.data]
  · rw [h.ridx]
    exact zero_le
  · show (b.data ++ bytes).length ≤ b.size
    rw [h.size, h.data, length_append]
    exact hfit
  · rw [h.size]
    decide

section
variable {sb rb : Rwbuf} {pending : Bytes}
variable (h : Ready rb pending) (hshort : pending.length ≤ 255)
include h hshort

theorem recvSpace_ready (fin : Bool) :
    recvSpace (openSock sb rb fin) true = (true, openSock sb rb fin) := by
  have hsizes := bufsizes
  have hspace := h.space
  unfold recvSpace
  rw [show (openSock sb rb fin).recvBuf = rb from rfl,
    show (openSock sb rb fin).minSize = SOCK_MIN_BUFSIZE from rfl]
  rw [if_neg (by omega)]

theorem sockRecv_open (k : Kernel) : sockRecv k (openSock sb rb false) true =
      let r := readLoop false k.reads (SOCK_INIT_BUFSIZE - pending.length)
      let rc : Int := if r.2.1.length = 0 then r.2.2.code false else r.2.1.length
      let s := (openSock sb rb false).stopped r.2.2
      if rc ≤ 0 then (rc, { k with reads := r.1 }, s)
      else (SOCK_DATA, { k with reads := r.1 }, s.received r.2.1) := by
  unfold sockRecv
  rw [recvSpace_ready h hshort, ← h.space]
  rfl

theorem sockRecv_fin (k : Kernel) :
    sockRecv k (openSock sb rb true) true = (SOCK_CLOSED, k, openSock sb rb true) := by
  unfold sockRecv
  rw [recvSpace_ready h hshort]
  rfl

/-- A call of `sock_recv` finds nothing, or the end of the stream, or reads something. In
the last case it may have seen the end as well. -/
theorem sockRecv_cases (hs : Script reads stream) (ws : List WriteResult) (acc : Bytes) :
    (∃ left, reads = .again :: left ∧ Script left stream ∧
        sockRecv ⟨ws, reads, acc⟩ (openSock sb rb false) true =
          (SOCK_AGAIN, ⟨ws, left, acc⟩, openSock sb rb false)) ∨
      (reads = [.data []] ∧ stream = [] ∧ sockRecv ⟨ws, reads, acc⟩ (openSock sb rb false) true =
          (SOCK_CLOSED, ⟨ws, [], acc⟩, openSock sb rb true)) ∨
      ∃ bytes left fin, sockRecv ⟨ws, reads, acc⟩ (openSock sb rb false) true =
          (SOCK_DATA, ⟨ws, left, acc⟩, openSock sb { rb with data := rb.data ++ bytes } fin) ∧
        Round reads bytes left ∧ left.length ≤ reads.length ∧
        pending.length + bytes.length ≤ SOCK_INIT_BUFSIZE ∧
        ((fin = true ∧ left = [] ∧ stream = bytes) ∨
          (fin = false ∧ ∃ rest, stream = bytes ++ rest ∧ Script left rest)) := by
  have hsizes := bufsizes
  have hlen : 0 < SOCK_INIT_BUFSIZE - pending.length := by omega
  rw [sockRecv_open h hshort]
  cases hs with
  | fin =>
    refine .inr (.inl ⟨rfl, rfl, ?_⟩)
    rw [readLoop_eof [] hlen]
    rfl
  | @again left _ hs =>
    refine .inl ⟨left, rfl, hs, ?_⟩
    rw [readLoop_again _ hlen]
    rfl
  | @data _ _ _ hne hs =>
    obtain ⟨left, bytes, stop, hloop, hbytes, hleft, hcase⟩ :=
      readLoop_script (Script.data hne hs) hlen
    have hsome : bytes ≠ [] := readLoop_ne_nil hne hlen hloop
    have hpos := length_pos_iff.2 hsome
    refine .inr (.inr ⟨bytes, left, stop = .closed, ?_, ⟨hsome, _, _, hlen, hloop⟩, hleft,
      by omega, ?_⟩)
    · rw [hloop, if_neg (by dsimp only; rw [if_neg (by omega)]; omega)]
      rcases hcase with ⟨rfl, -⟩ | ⟨rfl | rfl, -⟩ <;> rfl
    · rcases hcase with ⟨rfl, hnil, hall⟩ | ⟨hstop, hrest⟩
      · exact .inl ⟨rfl, hnil, hall.symm⟩
      · exact .inr ⟨by rcases hstop with rfl | rfl <;> rfl, hrest⟩

end

/-! ## The loops of an event -/

variable {D : Type} {store : Store D} {db : D} {executed : List Bytes} {sb rb : Rwbuf} {fin : Bool}
  {out pending : Bytes}

theorem recvLines_done (store : Store D) (db : D) (executed : List Bytes) (fin : Bool) {fuel : Nat}
    (h : InBuf rb content) (hl : Lines content) (ho : OutBuf sb out) (hfuel : content.length < fuel)
    (hend : fin = true → fragment content = [])
    (hfit : out.length + (respondAll store db (commands content)).1.length ≤ SOCK_MAX_BUFSIZE) :
    ∃ sb' rb', recvLines store fin true fuel (openConn db executed sb rb fin) =
        (0, openConn (respondAll store db (commands content)).2 (executed ++ commands content)
          sb' rb' fin) ∧
      OutBuf sb' (out ++ (respondAll store db (commands content)).1) ∧
      Ready rb' (fragment content) := by
  obtain ⟨-, sb', rb', fuel', hrun, hout, hin, hlt⟩ :=
    (recvLines_cases store db _ fin h hl ho hfuel fin).resolve_right fun _ => by omega
  obtain ⟨fuel', rfl⟩ : ∃ n, fuel' = n + 1 := ⟨fuel' - 1, by omega⟩
  rw [hrun]
  cases fin with
  | false =>
    rw [recvLines_more hin (notMem_fragment _) hl.rest]
    exact ⟨sb', rb'.shift, rfl, hout, hin.shift.1, hin.shift.2⟩
  | true =>
    rw [recvLines_end hin (notMem_fragment _) hl.rest, hend rfl]
    exact ⟨sb', _, rfl, hout, ready_reset hin⟩

theorem recvLines_unterminated (store : Store D) (db : D) (executed : List Bytes)
    (h : InBuf rb content) (hne : content ≠ []) (hfree : 10 ∉ content)
    (hshort : content.length ≤ 255) (hquit : lineCmd content ≠ .quit) (ho : OutBuf sb out)
    {fuel : Nat} (hfuel : 1 < fuel) :
    (∃ sb' rb' out', recvLines store true true fuel (openConn db executed sb rb true) =
        (0, openConn (respond store db content).2 (executed ++ [content]) sb' rb' true) ∧
      OutBuf sb' out' ∧ Ready rb' []) ∨
    ∃ c, recvLines store true true fuel (openConn db executed sb rb true) = (-1, c) ∧
      Broken c (respond store db content).2 (executed ++ [content]) := by
  obtain ⟨fuel, rfl⟩ : ∃ n, fuel = n + 2 := ⟨fuel - 2, by omega⟩
  have hready := ready_reset h
  rw [recvLines_end h hfree hshort]
  rw [if_neg hne]
  by_cases hfit : out.length + (respond store db content).1.length ≤ SOCK_MAX_BUFSIZE
  · obtain ⟨sb', hrun, ho'⟩ := processLine_fits _ db _
      { rb with data := [], ridx := 0 } true ho hquit hfit
    rw [hrun]
    exact .inl ⟨sb', _, _, rfl, ho', ready_reset hready.toInBuf⟩
  · obtain ⟨c, hrun, hbroken⟩ := processLine_full store db _
      { rb with data := [], ridx := 0 } true ho hquit (by omega)
    rw [hrun]
    exact .inr ⟨c, rfl, hbroken⟩

theorem recvLoop_data (store : Store D) (db : D) (executed : List Bytes) {k k' : Kernel} {rb' : Rwbuf}
    (h : sockRecv k (openSock sb rb false) true = (SOCK_DATA, k', openSock sb rb' fin)) (fuel : Nat) :
    recvLoop store true (fuel + 1) k (openConn db executed sb rb false) =
      let p := recvLines store fin true (rwbufUsed rb' + 1) (openConn db executed sb rb' fin)
      if p.1 < 0 then (p.1, k', p.2) else recvLoop store true fuel k' p.2 := by
  rw [recvLoop, show (openConn db executed sb rb false).sock = openSock sb rb false from rfl, h]
  rfl

theorem recvLoop_stop {k k' : Kernel} {fin' : Bool} {rc : Int} (hrc : rc ≠ SOCK_DATA)
    (h : sockRecv k (openSock sb rb fin) true = (rc, k', openSock sb rb fin')) (fuel : Nat) :
    recvLoop store true (fuel + 1) k (openConn db executed sb rb fin) =
      (rc, k', openConn db executed sb rb fin') := by
  rw [recvLoop, show (openConn db executed sb rb fin).sock = openSock sb rb fin from rfl, h]
  rw [if_neg hrc]
  rfl

/-- A connection that was open with `pending` bytes and `out` to send, and that has
executed the lines that `bytes` complete. -/
def Opened (store : Store D) (db : D) (executed : List Bytes) (out pending bytes : Bytes) (fin : Bool)
    (c : Conn D) : Prop :=
  ∃ sb rb, c = openConn (respondAll store db (commands (pending ++ bytes))).2
      (executed ++ commands (pending ++ bytes)) sb rb fin ∧
    OutBuf sb (out ++ (respondAll store db (commands (pending ++ bytes))).1) ∧
    Ready rb (fragment (pending ++ bytes))

theorem Opened.nil (h : Ready rb pending) (hfree : 10 ∉ pending) (ho : OutBuf sb out) :
    Opened store db executed out pending [] fin (openConn db executed sb rb fin) := by
  refine ⟨sb, rb, ?_, ?_, ?_⟩
  · rw [append_nil, commands_free hfree, append_nil]
    rfl
  · rw [append_nil, commands_free hfree]
    simpa [respondAll] using ho
  · rwa [append_nil, fragment_free hfree]

theorem Opened.after {rest : Bytes} {c : Conn D}
    (h : Opened store (respondAll store db (commands (pending ++ bytes))).2
      (executed ++ commands (pending ++ bytes))
      (out ++ (respondAll store db (commands (pending ++ bytes))).1) (fragment (pending ++ bytes))
      rest fin c) : Opened store db executed out pending (bytes ++ rest) fin c := by
  obtain ⟨sb', rb', rfl, hout, hready⟩ := h
  refine ⟨sb', rb', ?_, ?_, ?_⟩
  · rw [← append_assoc _, commands_append (pending ++ bytes), respondAll_append, append_assoc]
  · rw [← append_assoc _, commands_append, respondAll_append, ← append_assoc out]
    exact hout
  · rwa [← append_assoc _, fragment_append _]

/-- The outer loop of `do_client_recv`: after some rounds a read would block, or a response
does not fit, or the stream has been read to its end. -/
theorem recvLoop_spec (executed : List Bytes) {reads : List ReadResult} {stream : Bytes}
    (h : Ready rb pending) (hfree : 10 ∉ pending) (hs : Script reads stream)
    (hl : Lines (pending ++ stream)) (ho : OutBuf sb out) {fuel : Nat}
    (hfuel : stream.length < fuel) (ws : List WriteResult) (acc : Bytes) :
    ∃ bytes left, Rounds reads bytes left ∧ ((∃ left' c, left = .again :: left' ∧
          recvLoop store true fuel ⟨ws, reads, acc⟩ (openConn db executed sb rb false) =
            (SOCK_AGAIN, ⟨ws, left', acc⟩, c) ∧
          Opened store db executed out pending bytes false c) ∨
        (∃ c, recvLoop store true fuel ⟨ws, reads, acc⟩ (openConn db executed sb rb false) =
            (-1, ⟨ws, left, acc⟩, c) ∧
          Overflow store db executed out (commands (pending ++ bytes)) c) ∨
        (bytes = stream ∧ (left = [] ∨ left = [.data []]) ∧
          out.length + (respondAll store db (commands (pending ++ stream))).1.length ≤
            SOCK_MAX_BUFSIZE ∧
          (left = [.data []] ∨ fragment (pending ++ stream) = [] → ∃ c,
            recvLoop store true fuel ⟨ws, reads, acc⟩ (openConn db executed sb rb false) =
              (SOCK_CLOSED, ⟨ws, [], acc⟩, c) ∧
            Opened store db executed out pending stream true c))) := by
  have hshort : pending.length ≤ 255 := by
    have hrest := hl.split.1.rest
    rwa [fragment_free hfree] at hrest
  induction hn : stream.length using Nat.strong_induction_on
    generalizing db executed sb rb out pending stream reads fuel with
  | _ n ih =>
    obtain ⟨fuel, rfl⟩ : ∃ n, fuel = n + 1 := ⟨fuel - 1, by omega⟩
    rcases sockRecv_cases h hshort hs ws acc with ⟨left, rfl, hs', hrecv⟩ | ⟨rfl, rfl, hrecv⟩ |
      ⟨bytes, left, fin, hrecv, hround, -, hroom, hfin⟩
    · refine ⟨[], _, Rounds.stop _, .inl ⟨left, _, rfl, recvLoop_stop (by decide) hrecv _, ?_⟩⟩
      exact Opened.nil h hfree ho
    · refine ⟨[], _, Rounds.stop _, .inr (.inr ⟨rfl, .inr rfl, ?_, fun _ => ?_⟩)⟩
      · rw [append_nil, commands_free hfree]
        simpa [respondAll] using ho.length_le
      · exact ⟨_, recvLoop_stop (by decide) hrecv _, Opened.nil h hfree ho⟩
    · have hin := h.received hroom
      have hused := Nat.lt_succ_of_le (le_of_eq hin.length_content)
      rw [recvLoop_data _ db _ hrecv _]
      by_cases hfit : out.length +
          (respondAll store db (commands (pending ++ bytes))).1.length ≤ SOCK_MAX_BUFSIZE
      · rcases hfin with ⟨rfl, rfl, rfl⟩ | ⟨rfl, rest, rfl, hs'⟩
        · -- the end was seen with the last bytes
          refine ⟨stream ++ [], [], Rounds.more hround (Rounds.stop []), .inr (.inr ?_)⟩
          refine ⟨append_nil _, .inl rfl, hfit, fun hlast => ?_⟩
          have hend := hlast.resolve_left (cons_ne_nil _ _).symm
          obtain ⟨sb1, rb1, hrun, ho1, hready⟩ := recvLines_done _ db _ true hin hl ho
            hused (fun _ => hend) hfit
          obtain ⟨fuel, rfl⟩ : ∃ n, fuel = n + 1 := by
            have := length_pos_iff.2 hround.1
            exact ⟨fuel - 1, by omega⟩
          rw [hrun]
          exact ⟨_, recvLoop_stop (by decide) (sockRecv_fin hready hl.rest _) _, sb1, rb1, rfl,
            ho1, hready⟩
        · rw [← append_assoc] at hl
          obtain ⟨hl1, hl2⟩ := hl.split
          have hpos := length_pos_iff.2 hround.1
          rw [length_append] at hn hfuel
          obtain ⟨sb1, rb1, hrun, ho1, hready⟩ := recvLines_done _ db _ false hin hl1 ho
            hused (fun hf => by cases hf) hfit
          rw [hrun]
          obtain ⟨more, left', hrounds, hcase⟩ := @ih _ (by omega) (respondAll store db _).2 _ _ _ _
            _ _ _ hready (notMem_fragment _) hs' hl2
            ho1 fuel (by omega) hl1.rest rfl
          refine ⟨bytes ++ more, left', Rounds.more hround hrounds, ?_⟩
          rcases hcase with ⟨left'', c, hleft', hloop, hopen⟩ | ⟨c, hloop, hover⟩ |
            ⟨hall, hleft', hfit', hclosed⟩
          · exact .inl ⟨left'', c, hleft', hloop, hopen.after⟩
          · refine .inr (.inl ⟨c, hloop, ?_⟩)
            rw [← append_assoc, commands_append]
            exact Overflow.after _ hover
          · refine .inr (.inr ⟨by rw [hall], hleft', ?_, fun hend => ?_⟩)
            · rw [length_append] at hfit'
              rw [← append_assoc, commands_append, respondAll_append, length_append]
              omega
            · rw [← append_assoc, fragment_append] at hend
              obtain ⟨c, hloop, hopen⟩ := hclosed hend
              exact ⟨c, hloop, hopen.after⟩
      · have hl1 : Lines (pending ++ bytes) := by
          rcases hfin with ⟨-, -, rfl⟩ | ⟨-, rest, rfl, -⟩
          · exact hl
          · rw [← append_assoc] at hl
            exact hl.split.1
        obtain ⟨-, c, hrun, hover⟩ := (recvLines_cases _ db _ fin hin hl1 ho hused
          fin).resolve_left fun hall => hfit hall.1
        refine ⟨bytes ++ [], left, Rounds.more hround (Rounds.stop left), .inr (.inl ⟨c, ?_, ?_⟩)⟩
        · rw [hrun]
          rfl
        · rwa [append_nil]

end CDbK8s.Server
