import CDbK8s.Server.Segmentation

/-!
# Independence of the way a stream arrives
-/

namespace CDbK8s.Server

open Base Sock Lib.Pieces List

variable {writes : List WriteResult}

section
variable {D : Type} (store : Store D)

/-! ## Whole sessions -/

/-- All wake-ups of a session. -/
def Session.run (s : Session D) (wakes : List Wake) : Session D := wakes.foldl (Session.handle store) s

/-- With a wake-up for every read, the session ends in a state with `P`. -/
def Session.Ends (s : Session D) (P : Session D → Prop) : Prop :=
  ∀ wakes : List Wake, (∀ w ∈ wakes, w.Smooth) → s.reads.length ≤ wakes.length →
    P (s.run store wakes)

section
variable {store} {s : Session D} {P : Session D → Prop}

theorem run_destroyed (h : s.conn.destroyed = true) (wakes : List Wake) :
    s.run store wakes = s := by
  induction wakes with
  | nil => rfl
  | cons w wakes ih =>
    have hstep : s.handle store w = s := by
      unfold Session.handle
      rw [if_pos h]
    show (s.handle store w).run store wakes = s
    rw [hstep, ih]

theorem ends_of_handle (hne : s.reads ≠ [])
    (h : ∀ w : Wake, w.Smooth → ((s.handle store w).conn.destroyed = true ∧ P (s.handle store w)) ∨
        ((s.handle store w).reads.length < s.reads.length ∧ (s.handle store w).Ends store P)) :
    s.Ends store P := by
  intro wakes hwakes hlen
  have hpos := length_pos_iff.2 hne
  cases wakes with
  | nil =>
    rw [length_nil] at hlen
    omega
  | cons w wakes =>
    rw [forall_mem_cons] at hwakes
    rw [length_cons] at hlen
    show P ((s.handle store w).run store wakes)
    rcases h w hwakes.1 with ⟨hdead, hP⟩ | ⟨hless, hends⟩
    · rwa [run_destroyed hdead]
    · exact hends wakes hwakes.2 (by omega)

end

/-! ## What was sent stays sent -/

section
variable {store}

theorem accepted_sockRecv (k : Kernel) (s : SimpleSock) (reallocOk : Bool) :
    (sockRecv k s reallocOk).2.1.accepted = k.accepted := by
  unfold sockRecv sockReadData
  dsimp only
  split_ifs <;> rfl

theorem accepted_recvLoop (store : Store D) (fuel : Nat) (k : Kernel) (c : Conn D) :
    (recvLoop store true fuel k c).2.1.accepted = k.accepted := by
  induction fuel generalizing k c with
  | zero => rfl
  | succ fuel ih =>
    have hrecv := accepted_sockRecv k c.sock true
    unfold recvLoop
    dsimp only
    split_ifs
    · exact hrecv
    · exact (ih _ _).trans hrecv
    · exact hrecv

theorem accepted_sockSend (k : Kernel) (s : SimpleSock) :
    k.accepted <+: (sockSend k s).2.1.accepted := by
  have hwrite : k.accepted <+: (sockWriteIovs k s [s.sendBuf.unread]).2.2.1.accepted := by
    unfold sockWriteIovs
    split_ifs
    · exact prefix_refl _
    · exact prefix_refl _
    · exact prefix_append _ _
  unfold sockSend
  dsimp only
  split_ifs <;> exact hwrite

theorem accepted_doClientSend (k : Kernel) (c : Conn D) :
    k.accepted <+: (doClientSend k c true).1.accepted := by
  have hsend := accepted_sockSend k c.sock
  unfold doClientSend
  dsimp only
  split_ifs <;> exact hsend

theorem accepted_doClientRecv (store : Store D) (k : Kernel) (c : Conn D) :
    (doClientRecv store k c true).1.accepted = k.accepted := by
  unfold doClientRecv
  dsimp only
  split <;> exact accepted_recvLoop _ _ _ _

theorem output_handle (s : Session D) (w : Wake) : s.output <+: (s.handle store w).output := by
  unfold Session.handle clientRecvEvent
  split
  · exact prefix_refl _
  · have hsend : s.output <+:
        (sendPhase ⟨w.writes, s.reads, s.output⟩ s.conn w.mask true).1.accepted := by
      unfold sendPhase
      split
      · exact accepted_doClientSend ⟨w.writes, s.reads, s.output⟩ _
      · exact prefix_refl _
    refine hsend.trans ?_
    unfold recvPhase
    split
    · rw [← accepted_doClientRecv _ _ (sendPhase _ _ _ true).2]
      exact accepted_doClientSend _ _
    · exact prefix_refl _

theorem output_run (s : Session D) (wakes : List Wake) : s.output <+: (s.run store wakes).output := by
  induction wakes generalizing s with
  | nil => exact prefix_refl _
  | cons w wakes ih => exact (output_handle s w).trans (ih _)

end

/-! ## Deliveries that come to the same -/

/-- What an observer sees of a session. -/
def Session.outcome (s : Session D) : List Bytes × D × Bytes :=
  (s.conn.executed, s.conn.db, s.output)

theorem Session.Ended.outcome {s : Session D} {db : D} {executed : List Bytes} {output : Bytes}
    (h : s.Ended db executed output) : s.outcome = (executed, db, output) := by
  unfold Session.outcome
  rw [h.db_eq, h.executed_eq, h.output_eq]

section
variable {store} {s : Session D} {db : D}

theorem respondAll_length_le (store : Store D) (db : D) (xs ys : List Bytes) :
    (respondAll store db xs).1.length ≤ (respondAll store db (xs ++ ys)).1.length := by
  rw [respondAll_append, length_append]
  omega

theorem overflow_length_le (store : Store D) (db : D) {x : Bytes} {done todo : List Bytes}
    {line : Bytes} (h : commands x = done ++ line :: todo) (y : Bytes) :
    (respondAll store db (done ++ [line])).1.length ≤
      (respondAll store db (commands (x ++ y))).1.length := by
  have hlines : commands (x ++ y) = (done ++ [line]) ++ (todo ++ commands (fragment x ++ y)) := by
    rw [commands_append, h]
    simp
  rw [hlines]
  exact respondAll_length_le _ db _ _

/-- An open session that has handled `x` of the stream. -/
structure Session.Sync (s : Session D) (store : Store D) (db : D) (x : Bytes) : Prop where
  live : s.Live (respondAll store db (commands x)).2 (commands x) (fragment x)
  output : s.output = prompt ++ (respondAll store db (commands x)).1

theorem Session.Sync.append {s' : Session D} {x bytes : Bytes} (h : s.Sync store db x)
    (hlive : s'.Live
      (respondAll store (respondAll store db (commands x)).2 (commands (fragment x ++ bytes))).2
      (commands x ++ commands (fragment x ++ bytes)) (fragment (fragment x ++ bytes)))
    (houtput : s'.output = s.output ++
      (respondAll store (respondAll store db (commands x)).2 (commands (fragment x ++ bytes))).1) :
    s'.Sync store db (x ++ bytes) := by
  constructor
  · rw [commands_append, fragment_append, respondAll_append]
    exact hlive
  · rw [commands_append, respondAll_append, houtput, h.output, append_assoc]

theorem ends_fits {x y : Bytes} (h : s.Sync store db x) (hs : Script s.reads y)
    (hl : Lines (x ++ y)) (hend : fragment (x ++ y) = [])
    (hfit : (respondAll store db (commands (x ++ y))).1.length ≤ SOCK_MAX_BUFSIZE) :
    s.Ends store fun s => s.outcome = (commands (x ++ y), (respondAll store db (commands (x ++ y))).2,
      prompt ++ (respondAll store db (commands (x ++ y))).1) := by
  induction hn : s.reads.length using Nat.strong_induction_on generalizing s x y with
  | _ n ih =>
    refine ends_of_handle hs.ne_nil fun w hw => ?_
    obtain ⟨bytes, left, hrounds, hcase⟩ :=
      handle_spec _ h.live (notMem_fragment x) hs hl.split.2 hw
    rcases hcase with ⟨hleft, -, hlive, houtput⟩ | ⟨done, line, todo, hlines, -, hfull, -⟩ |
      ⟨-, -, -, hended⟩
    · right
      subst hleft
      obtain ⟨rest, rfl, hscript, hless⟩ := hrounds.again hs
      rw [← append_assoc] at hl hend hfit ⊢
      refine ⟨hless, @ih _ (by omega) _ _ _ (h.append hlive houtput) hscript hl hend hfit rfl⟩
    · -- what does not fit here does not fit there
      obtain ⟨rest, rfl, -⟩ := hrounds.script hs
      have hmore := overflow_length_le store (respondAll store db (commands x)).2 hlines rest
      rw [append_assoc] at hmore
      rw [commands_append, respondAll_append, length_append] at hfit
      omega
    · left
      have hdone := hended (.inr (by rw [← fragment_append]; exact hend))
      refine ⟨hdone.destroyed, ?_⟩
      simp [hdone.outcome, h.output, commands_append x y, respondAll_append]

/-- When the response to the first line does not fit, every session ends with it, and
nothing is sent. -/
theorem ends_first_full {x y : Bytes} {line : Bytes} {lines : List Bytes}
    (h : s.Live db [] x) (houtput : s.output = prompt) (hfree : 10 ∉ x) (hs : Script s.reads y)
    (hl : Lines (x ++ y)) (hcommands : commands (x ++ y) = line :: lines)
    (hfull : SOCK_MAX_BUFSIZE < (respond store db line).1.length) :
    s.Ends store fun s => s.outcome = ([line], (respond store db line).2, prompt) := by
  -- a run of first lines that fits is empty
  have hfirst : ∀ {xs ys : List Bytes}, line :: lines = xs ++ ys →
      (respondAll store db xs).1.length ≤ SOCK_MAX_BUFSIZE → xs = [] := by
    intro xs ys heq hle
    cases xs with
    | nil => rfl
    | cons l _ =>
      rw [cons_append, List.cons.injEq] at heq
      simp [respondAll, ← heq.1] at hle
      omega
  induction hn : s.reads.length using Nat.strong_induction_on generalizing s x y with
  | _ n ih =>
    refine ends_of_handle hs.ne_nil fun w hw => ?_
    obtain ⟨bytes, left, hrounds, hcase⟩ := handle_spec _ h hfree hs hl hw
    obtain ⟨rest, rfl, -⟩ := hrounds.script hs
    have hcut : line :: lines =
        commands (x ++ bytes) ++ commands (fragment (x ++ bytes) ++ rest) := by
      rw [← hcommands, ← append_assoc, commands_append]
    rcases hcase with ⟨hleft, hfit, hlive, hsent⟩ | ⟨done, line', todo, hlines, hfit, -, hended⟩ |
      ⟨-, -, hfit, -⟩
    · right
      subst hleft
      obtain ⟨rest', hrest, hscript, hless⟩ := hrounds.again hs
      obtain rfl := append_cancel_left hrest
      have hnone := hfirst hcut hfit
      have hfree' := notMem_of_commands hnone
      rw [hnone, fragment_free hfree'] at hlive
      rw [hnone, houtput] at hsent
      rw [← append_assoc] at hl hcommands
      exact ⟨hless, @ih _ (by omega) _ _ _ hlive (hsent.trans (append_nil _)) hfree' hscript hl
        hcommands rfl⟩
    · left
      rw [hlines, append_assoc] at hcut
      have hnone := hfirst hcut hfit
      subst hnone
      obtain ⟨rfl, -⟩ := List.cons.inj hcut
      refine ⟨hended.destroyed, ?_⟩
      rw [hended.outcome, houtput]
      rfl
    · rw [hcommands] at hfit
      have := hfirst (append_nil _).symm hfit
      cases this

end

/-! ## Deliveries that differ -/

section
variable {store} {s : Session D} {db : D} {executed : List Bytes} {pending stream part : Bytes}
  {tail : List ReadResult}

/-- A part of the stream behind which two reads find nothing is handled by itself. -/
theorem handle_part (store : Store D) (h : s.Live db executed pending) (hfree : 10 ∉ pending)
    (hs : Script s.reads stream) (hl : Lines (pending ++ stream))
    (hreads : s.reads = .data part :: .again :: .again :: tail) (hne : part ≠ []) {w : Wake}
    (hw : w.Smooth) :
    ((respondAll store db (commands (pending ++ part))).1.length ≤ SOCK_MAX_BUFSIZE ∧
        ((s.handle store w).reads = .again :: tail ∨ (s.handle store w).reads = tail) ∧
        (s.handle store w).Live (respondAll store db (commands (pending ++ part))).2
          (executed ++ commands (pending ++ part)) (fragment (pending ++ part)) ∧
        (s.handle store w).output =
          s.output ++ (respondAll store db (commands (pending ++ part))).1) ∨
      (SOCK_MAX_BUFSIZE < (respondAll store db (commands (pending ++ part))).1.length ∧
        (s.handle store w).conn.destroyed = true ∧ (s.handle store w).output = s.output) := by
  obtain ⟨bytes, left, hrounds, hcase⟩ := handle_spec store h hfree hs hl hw
  rcases hrounds.barrier hne hreads with ⟨rest, -, rfl, hcut⟩ | ⟨rfl, hleft⟩
  · rcases hcase with ⟨hagain, -⟩ | ⟨done, line, todo, hlines, -, hfull, hended⟩ | ⟨-, hend, -⟩
    · rw [hcut] at hagain
      cases hagain
    · right
      have hmore := overflow_length_le store db hlines rest
      rw [append_assoc] at hmore
      exact ⟨by omega, hended.destroyed, hended.output_eq⟩
    · rw [hcut] at hend
      rcases hend with hend | hend <;> cases hend
  · rcases hcase with ⟨hagain, hfit, hlive, houtput⟩ | ⟨done, line, todo, hlines, -, hfull, hended⟩ |
      ⟨-, hend, -⟩
    · refine .inl ⟨hfit, ?_, hlive, houtput⟩
      rcases hleft with rfl | rfl
      · exact .inl (List.cons.inj hagain).2.symm
      · exact .inr (List.cons.inj hagain).2.symm
    · right
      have hmore := overflow_length_le store db hlines []
      rw [append_nil] at hmore
      exact ⟨by omega, hended.destroyed, hended.output_eq⟩
    · rcases hleft with rfl | rfl <;> rcases hend with hend | hend <;> cases hend

theorem ends_again {P : Session D → Prop} (h : s.Live db executed pending) (hfree : 10 ∉ pending)
    (hs : Script tail stream) (hl : Lines (pending ++ stream)) (hreads : s.reads = .again :: tail)
    (hnext : ∀ s' : Session D, s'.Live db executed pending → s'.reads = tail → s'.Ends store P) :
    s.Ends store P := by
  have hscript : Script s.reads stream := by
    rw [hreads]
    exact Script.again hs
  refine ends_of_handle hscript.ne_nil fun w hw => .inr ?_
  obtain ⟨bytes, left, hrounds, hcase⟩ := handle_spec _ h hfree hscript hl hw
  rw [hreads] at hrounds
  obtain ⟨rfl, rfl⟩ : bytes = [] ∧ left = .again :: tail := by
    cases hrounds with
    | stop => exact ⟨rfl, rfl⟩
    | more hround => exact absurd hround not_round_again
  rw [append_nil, commands_free hfree, fragment_free hfree, append_nil] at hcase
  rcases hcase with ⟨hleft, -, hlive, -⟩ | ⟨done, line, todo, hlines, -⟩ | ⟨-, hleft, -⟩
  · have htail := (List.cons.inj hleft).2.symm
    rw [htail, hreads]
    exact ⟨Nat.lt_succ_self _, hnext _ hlive htail⟩
  · simp at hlines
  · rcases hleft with hleft | hleft <;> cases hleft

/-- `front` comes in an event of its own. -/
def lead (front : Bytes) (tail : List ReadResult) : List ReadResult :=
  if front = [] then tail else .data front :: .again :: .again :: tail

theorem script_lead (front : Bytes) (hs : Script tail stream) :
    Script (lead front tail) (front ++ stream) := by
  unfold lead
  split
  · rename_i hnil
    rwa [hnil]
  · rename_i hne
    exact Script.data hne (Script.again (Script.again hs))

theorem ends_lead {P : Session D → Prop} {front : Bytes} (h : s.Live db [] [])
    (hreads : s.reads = lead front tail) (hs : Script tail stream) (hl : Lines (front ++ stream))
    (hfront : fragment front = [])
    (hfit : (respondAll store db (commands front)).1.length ≤ SOCK_MAX_BUFSIZE)
    (hnext : ∀ s' : Session D, s'.Live (respondAll store db (commands front)).2 (commands front) [] →
      s'.reads = tail → s'.Ends store P) : s.Ends store P := by
  have hscript := script_lead front hs
  rw [← hreads] at hscript
  unfold lead at hreads
  split at hreads
  · rename_i hnil
    subst hnil
    exact hnext s h hreads
  · rename_i hne
    refine ends_of_handle hscript.ne_nil fun w hw => .inr ?_
    rcases handle_part _ h not_mem_nil hscript hl hreads hne hw with
      ⟨-, htail, hlive, -⟩ | ⟨hfull, -⟩
    · rw [nil_append, hfront] at hlive
      rcases htail with htail | htail
      · refine ⟨by rw [htail, hreads]; exact Nat.lt_succ_of_le (Nat.le_succ _), ?_⟩
        refine ends_again hlive not_mem_nil hs ?_ htail hnext
        have hrest := hl.split.2
        rwa [hfront] at hrest
      · refine ⟨?_, hnext _ hlive htail⟩
        rw [htail, hreads]
        exact Nat.lt_succ_of_le (Nat.le_succ_of_le (Nat.le_succ _))
    · simp at hfull
      omega

theorem ends_read (h : s.Live db executed pending) (hfree : 10 ∉ pending)
    (hshort : pending.length ≤ 255) (hs : Script s.reads []) :
    s.Ends store fun s => s.conn.executed = executed := by
  have hl : Lines (pending ++ []) := by
    rw [append_nil]
    exact ⟨by rw [pieces_free hfree]; exact forall_mem_nil _, by rwa [fragment_free hfree],
      by rw [commands_free hfree]; exact forall_mem_nil _⟩
  induction hn : s.reads.length using Nat.strong_induction_on generalizing s with
  | _ n ih =>
    refine ends_of_handle hs.ne_nil fun w hw => ?_
    obtain ⟨bytes, left, hrounds, hcase⟩ := handle_spec store h hfree hs hl hw
    obtain ⟨rest, hnil, -⟩ := hrounds.script hs
    obtain ⟨rfl, rfl⟩ := append_eq_nil_iff.1 hnil.symm
    obtain rfl := hrounds.eq_of_nil rfl
    rw [append_nil, commands_free hfree, fragment_free hfree, append_nil] at hcase
    rcases hcase with ⟨hleft, -, hlive, -⟩ | ⟨done, line, todo, hlines, -⟩ | ⟨-, hleft, -, hended⟩
    · right
      have hless : (s.handle store w).reads.length < s.reads.length := by
        rw [hleft, length_cons]
        omega
      rw [hleft] at hs
      cases hs with
      | again hs => exact ⟨hless, @ih _ (by omega) _ hlive hs rfl⟩
    · simp at hlines
    · left
      have hdone := hended (.inl (hleft.resolve_left hs.ne_nil))
      exact ⟨hdone.destroyed, hdone.executed_eq⟩

/-- A last line that is read together with the end of the stream is executed, even
without its line feed. -/
theorem ends_unterminated (h : s.Live db executed []) (hne : part ≠ []) (hfree : 10 ∉ part)
    (hshort : part.length ≤ 255) (hquit : lineCmd part ≠ .quit)
    (hreads : s.reads = [.data part, .data []]) :
    s.Ends store fun s => s.conn.executed = executed ++ [part] := by
  obtain ⟨sb, rb, hconn, ho, hready⟩ := h
  have hpos := length_pos_iff.2 hne
  refine ends_of_handle (by rw [hreads]; exact cons_ne_nil _ _) fun w hw => .inl ?_
  have hsizes := bufsizes
  have hin := hready.received (show ([] : Bytes).length + part.length ≤ SOCK_INIT_BUFSIZE by
    rw [length_nil]
    omega)
  have hread : readLoop false [.data part, .data []] SOCK_INIT_BUFSIZE = ([], part, .closed) := by
    rw [readLoop_part hne _ (by decide), if_neg (by omega), readLoop_eof [] (by omega)]
    dsimp only
    rw [append_nil]
  have hrecv : sockRecv ⟨w.writes, s.reads, s.output⟩ (openSock sb rb false) true =
      (SOCK_DATA, ⟨w.writes, [], s.output⟩,
        openSock sb { rb with data := rb.data ++ part } true) := by
    rw [sockRecv_open hready (Nat.zero_le _), hreads, length_nil, Nat.sub_zero]
    rw [hread, if_neg (by dsimp only; rw [if_neg (by omega)]; omega)]
    rfl
  have hloop := recvLoop_data store db executed hrecv (readable s.reads)
  rw [← hconn] at hloop
  rcases recvLines_unterminated _ db _ hin hne hfree hshort hquit ho
      (show 1 < rwbufUsed { rb with data := rb.data ++ part } + 1 by
        rw [← hin.length_content, nil_append]
        omega) with ⟨sb', rb', out', hrun, ho', hready'⟩ | ⟨c, hrun, hbroken⟩
  · have hreadable : readable s.reads = part.length := by
      rw [hreads]
      rfl
    obtain ⟨fuel, hfuel⟩ : ∃ n, readable s.reads = n + 1 := ⟨part.length - 1, by omega⟩
    rw [hrun] at hloop
    dsimp only at hloop
    rw [hfuel, recvLoop_stop (by decide) (sockRecv_fin hready' (Nat.zero_le _) _), ← hfuel] at hloop
    have hended := handle_closed hconn ho hw hloop ho'
    exact ⟨hended.destroyed, hended.executed_eq⟩
  · rw [hrun] at hloop
    have hended := handle_overflow hconn ho hw hloop hbroken
    exact ⟨hended.destroyed, hended.executed_eq⟩

end

/-! ## Independence -/

/-- A way in which a stream can reach the server: the reads that deliver it, and a wake-up
for each of them; the kernel takes all that is written. -/
structure Delivery (stream : Bytes) where
  writes : List WriteResult
  reads : List ReadResult
  wakes : List Wake
  opened : TakesAll writes
  script : Script reads stream
  smooth : ∀ w ∈ wakes, w.Smooth
  enough : reads.length ≤ wakes.length

/-- The session that a delivery starts. -/
def Delivery.session {stream : Bytes} (d : Delivery stream) (db : D) : Session D :=
  (opening db d.writes d.reads).run store d.wakes

/-- Every delivery of the stream comes to the same. -/
def SegmentationIndependent (db : D) (stream : Bytes) : Prop :=
  ∀ d d' : Delivery stream, (d.session store db).outcome = (d'.session store db).outcome

/-- The lines have at most `MAX_LINE - 2` bytes, and none of them is `QUIT`. -/
structure Admissible (stream : Bytes) : Prop where
  short : ∀ line ∈ commands stream, line.length ≤ 254
  noQuit : ∀ line ∈ commands stream, lineCmd line ≠ .quit
  last_short : (fragment stream).length ≤ 254
  last_noQuit : lineCmd (fragment stream) ≠ .quit

/-- Either the answer to the first command is too long for the send buffer by itself, or
the stream ends with a line feed and the buffer has room for the answers to all
commands. -/
def AnswersFit (db : D) (stream : Bytes) : Prop :=
  (∃ line lines, commands stream = line :: lines ∧
      SOCK_MAX_BUFSIZE < (respond store db line).1.length) ∨
    (fragment stream = [] ∧ (respondAll store db (commands stream)).1.length ≤ SOCK_MAX_BUFSIZE)

theorem Admissible.lines {stream : Bytes} (h : Admissible stream) : Lines stream := by
  refine ⟨fun l hl => ?_, Nat.le_succ_of_le h.last_short, h.noQuit⟩
  have hshort := h.short _ (mem_map_of_mem hl)
  have hstrip : l.length ≤ (stripCr l).length + 1 := by
    unfold stripCr
    split
    · rw [length_dropLast]
      omega
    · exact Nat.le_succ _
  omega

section
variable {store} {db : D} {stream : Bytes}

theorem Delivery.of_ends (d : Delivery stream) {P : Session D → Prop}
    (h : (opening db d.writes d.reads).Ends store P) : P (d.session store db) := by
  refine h d.wakes d.smooth ?_
  rw [(opening_live db d.opened _).2.1]
  exact d.enough

section
variable (h : SegmentationIndependent store db stream)
include h

theorem SegmentationIndependent.executed (d d' : Delivery stream) :
    (d.session store db).conn.executed = (d'.session store db).conn.executed :=
  (Prod.ext_iff.1 (h d d')).1

theorem SegmentationIndependent.output (d d' : Delivery stream) :
    (d.session store db).output = (d'.session store db).output :=
  (Prod.ext_iff.1 (Prod.ext_iff.1 (h d d')).2).2

end

theorem independent_of_fit (h : Admissible stream) (hfit : AnswersFit store db stream) :
    SegmentationIndependent store db stream := by
  -- both deliveries come to what the condition says
  suffices hsame : ∃ o, ∀ d : Delivery stream, (d.session store db).outcome = o by
    obtain ⟨o, ho⟩ := hsame
    intro d d'
    rw [ho d, ho d']
  rcases hfit with ⟨line, lines, hcommands, hfull⟩ | ⟨hend, hfit⟩
  · refine ⟨([line], (respond store db line).2, prompt), fun d =>
      d.of_ends (P := fun s => s.outcome = _) ?_⟩
    obtain ⟨hlive, hreads, houtput⟩ := opening_live db d.opened _
    exact ends_first_full hlive houtput not_mem_nil (by rw [hreads]; exact d.script) h.lines
      hcommands hfull
  · refine ⟨(commands stream, (respondAll store db (commands stream)).2,
      prompt ++ (respondAll store db (commands stream)).1), fun d =>
      d.of_ends (P := fun s => s.outcome = _) ?_⟩
    obtain ⟨hlive, hreads, houtput⟩ := opening_live db d.opened _
    exact ends_fits (x := []) ⟨hlive, houtput.trans (append_nil _).symm⟩
      (by rw [hreads]; exact d.script) h.lines hend hfit

theorem takesAll : TakesAll [.wrote 8192] := ⟨8192, [], rfl, le_rfl⟩

def readWake : Wake := ⟨⟨true, false, false, false, false⟩, [.wrote 8192]⟩

/-- A delivery in which every write takes all. -/
def steady {stream : Bytes} {reads : List ReadResult} (h : Script reads stream) : Delivery stream where
  writes := [.wrote 8192]
  reads := reads
  wakes := replicate reads.length readWake
  opened := takesAll
  script := h
  smooth := by
    intro w hw
    rw [eq_of_mem_replicate hw]
    exact ⟨rfl, takesAll⟩
  enough := by rw [length_replicate]

theorem session_steady {reads : List ReadResult} (h : Script reads stream) :
    (steady h).session store db =
      (opening db [.wrote 8192] reads).run store (replicate reads.length readWake) :=
  rfl

theorem script_whole (hne : stream ≠ []) : Script [.data stream, .again, .again, .data []] stream := by
  have h := Script.data hne (Script.again (Script.again Script.fin))
  rwa [append_nil] at h

def restReads (rest : Bytes) : List ReadResult :=
  if rest = [] then [.data []] else [.data rest, .data []]

theorem script_rest (rest : Bytes) : Script (restReads rest) rest := by
  unfold restReads
  split
  · rename_i hnil
    rw [hnil]
    exact Script.fin
  · rename_i hne
    have h := Script.data hne Script.fin
    rwa [append_nil] at h

theorem ends_whole_full (h : Lines stream) (hne : stream ≠ [])
    (hfull : SOCK_MAX_BUFSIZE < (respondAll store db (commands stream)).1.length)
    (hw : TakesAll writes) :
    (opening db writes [.data stream, .again, .again, .data []]).Ends store
      fun s => s.output = prompt := by
  obtain ⟨hlive, hreads, houtput⟩ := opening_live db hw [.data _, .again, .again, .data []]
  have hscript := script_whole hne
  rw [← hreads] at hscript
  refine ends_of_handle hscript.ne_nil fun w hw => .inl ?_
  rcases handle_part store hlive not_mem_nil hscript h hreads hne hw with
    ⟨hfit, -⟩ | ⟨-, hdead, hsame⟩
  · simp at hfit
    omega
  · exact ⟨hdead, hsame.trans houtput⟩

theorem ends_first_sent {l r : Bytes} (h : Lines ((l ++ [10]) ++ r)) (hl : 10 ∉ l)
    (hfit : (respond store db (stripCr l)).1.length ≤ SOCK_MAX_BUFSIZE) (hw : TakesAll writes) :
    (opening db writes (.data (l ++ [10]) :: .again :: .again :: restReads r)).Ends store
      fun s => prompt ++ (respond store db (stripCr l)).1 <+: s.output := by
  have hne : l ++ [10] ≠ [] := by simp
  have hscript := Script.data hne (Script.again (Script.again (script_rest r)))
  obtain ⟨hlive, hreads, houtput⟩ := opening_live db hw (.data _ :: .again :: .again :: restReads r)
  have hcommands : commands ([] ++ (l ++ [10])) = [stripCr l] := commands_line hl []
  have hall : (respondAll store db [stripCr l]).1 = (respond store db (stripCr l)).1 := append_nil _
  rw [← hreads] at hscript
  refine ends_of_handle hscript.ne_nil fun w hw => .inr ?_
  rcases handle_part _ hlive not_mem_nil hscript h hreads hne hw with
    ⟨-, htail, -, hsent⟩ | ⟨hfull, -⟩
  · refine ⟨?_, fun _ _ _ => ?_⟩
    · rw [hreads]
      rcases htail with htail | htail <;> rw [htail] <;> simp only [length_cons] <;> omega
    · rw [houtput, hcommands, hall] at hsent
      rw [← hsent]
      exact output_run _ _
  · rw [hcommands, hall] at hfull
    omega

theorem fits_of_independent (h : Lines stream)
    (hfirst : ∀ line lines, commands stream = line :: lines →
      (respond store db line).1.length ≤ SOCK_MAX_BUFSIZE)
    (hind : SegmentationIndependent store db stream) :
    (respondAll store db (commands stream)).1.length ≤ SOCK_MAX_BUFSIZE := by
  by_contra hfull
  push Not at hfull
  rcases free_or_sep 10 stream with hfree | ⟨l, r, hl, hstream⟩
  · rw [commands_free hfree] at hfull
    simp [respondAll] at hfull
  · obtain rfl : stream = (l ++ [10]) ++ r := by simpa using hstream
    have hcommands : commands ((l ++ [10]) ++ r) = stripCr l :: commands r := by
      rw [← commands_line hl r]
      simp
    have hne : l ++ [10] ≠ [] := by simp
    have hwhole := append_ne_nil_of_left_ne_nil hne r
    have hone := (steady (script_whole hwhole)).of_ends (ends_whole_full h hwhole hfull takesAll)
    have htwo := (steady (Script.data hne (Script.again (Script.again (script_rest r))))).of_ends
      (ends_first_sent h hl (hfirst _ _ hcommands) takesAll)
    rw [hind.output, hone] at htwo
    have hlen := htwo.length_le
    have hpos := length_pos_iff.2 (respond_ne_nil store db (stripCr l))
    rw [length_append] at hlen
    omega

section
variable {front part : Bytes} (hl : Lines (front ++ part)) (hfront : fragment front = [])
  (hfit : (respondAll store db (commands front)).1.length ≤ SOCK_MAX_BUFSIZE) (hne : part ≠ [])
  (hfree : 10 ∉ part)
include hl hfront hfit hne hfree

/-- A last line without a line feed, and the end of the stream in a later read: the line is
not executed. -/
theorem ends_end_later (hw : TakesAll writes) :
    (opening db writes (lead front [.data part, .again, .again, .data []])).Ends store
      fun s => s.conn.executed = commands front := by
  obtain ⟨hlive, hreads, -⟩ := opening_live db hw _
  have hlpart : Lines ([] ++ part) := by
    have hrest := hl.split.2
    rwa [hfront] at hrest
  refine ends_lead hlive hreads (script_whole hne) hl hfront hfit fun s hs hreads => ?_
  have hscript := script_whole hne
  rw [← hreads] at hscript
  refine ends_of_handle hscript.ne_nil fun w hw => .inr ?_
  rcases handle_part _ hs not_mem_nil hscript hlpart hreads hne hw with
    ⟨-, htail, hlive, -⟩ | ⟨hfull, -⟩
  · rw [nil_append, commands_free hfree, fragment_free hfree, append_nil] at hlive
    have hshort : part.length ≤ 255 := by
      have hrest := hlpart.rest
      rwa [nil_append, fragment_free hfree] at hrest
    rcases htail with htail | htail
    · rw [hreads, htail]
      refine ⟨by simp, ends_read hlive hfree hshort ?_⟩
      rw [htail]
      exact Script.again Script.fin
    · rw [hreads, htail]
      refine ⟨by simp, ends_read hlive hfree hshort ?_⟩
      rw [htail]
      exact Script.fin
  · rw [nil_append, commands_free hfree] at hfull
    simp [respondAll] at hfull

theorem ends_end_together (hquit : lineCmd part ≠ .quit) (hw : TakesAll writes) :
    (opening db writes (lead front (restReads part))).Ends store
      fun s => s.conn.executed = commands front ++ [part] := by
  obtain ⟨hlive, hreads, -⟩ := opening_live db hw _
  have hrest : restReads part = [.data part, .data []] := if_neg hne
  have hshort : part.length ≤ 255 := by
    have hle := hl.split.2.rest
    rwa [hfront, nil_append, fragment_free hfree] at hle
  exact ends_lead hlive hreads (script_rest _) hl hfront hfit fun s hs hreads =>
    ends_unterminated hs hne hfree hshort hquit (hreads.trans hrest)

end

theorem terminated_of_independent (h : Admissible stream)
    (hfit : (respondAll store db (commands stream)).1.length ≤ SOCK_MAX_BUFSIZE)
    (hind : SegmentationIndependent store db stream) : fragment stream = [] := by
  by_contra hne
  obtain ⟨front, hstream, hfront⟩ := exists_front 10 stream
  have hfree := notMem_fragment stream
  have hl := h.lines
  have hquit := h.last_noQuit
  rw [show (pieces 10 stream).2 = fragment stream from rfl] at hstream
  generalize fragment stream = part at hstream hne hfree hquit
  subst hstream
  have hcommands : commands (front ++ part) = commands front := by
    simp [commands_append, show fragment front = [] from hfront, commands_free hfree]
  rw [hcommands] at hfit
  have hlater := (steady (script_lead _ (script_whole hne))).of_ends
    (ends_end_later hl hfront hfit hne hfree takesAll)
  have htogether := (steady (script_lead _ (script_rest _))).of_ends
    (ends_end_together hl hfront hfit hne hfree hquit takesAll)
  rw [hind.executed, hlater] at htogether
  simp at htogether

/-- A stream is handled in the same way however it arrives exactly if its answers fit. -/
theorem segmentation_independent_iff (store : Store D) (db : D) {stream : Bytes}
    (h : Admissible stream) :
    SegmentationIndependent store db stream ↔ AnswersFit store db stream := by
  constructor
  · intro hind
    by_cases hfull : ∃ line lines, commands stream = line :: lines ∧
        SOCK_MAX_BUFSIZE < (respond store db line).1.length
    · exact .inl hfull
    · have hfirst : ∀ line lines, commands stream = line :: lines →
          (respond store db line).1.length ≤ SOCK_MAX_BUFSIZE := by
        intro line lines hcommands
        by_contra hlong
        exact hfull ⟨line, lines, hcommands, by omega⟩
      have hfit := fits_of_independent h.lines hfirst hind
      exact .inr ⟨terminated_of_independent h hfit hind, hfit⟩
  · intro hfit
    exact independent_of_fit h hfit

end

end

/-- `GET a` and a line feed. -/
theorem get_line_independent : SegmentationIndependent emptyStore () [71, 69, 84, 32, 97, 10] := by
  have hadm : Admissible [71, 69, 84, 32, 97, 10] := ⟨by decide, by decide, by decide, by decide⟩
  exact (segmentation_independent_iff _ () hadm).2 (.inr ⟨rfl, by decide⟩)

/-- `GET a` without a line feed is executed when the end of the stream is read with it, and
not when it is read later. -/
theorem unterminated_get_depends :
    Admissible [71, 69, 84, 32, 97] ∧
      ¬ SegmentationIndependent emptyStore () [71, 69, 84, 32, 97] := by
  refine ⟨⟨by decide, by decide, by decide, by decide⟩, fun h => ?_⟩
  have htogether : Script [.data [71, 69, 84, 32, 97], .data []] [71, 69, 84, 32, 97] :=
    Script.data (by decide) Script.fin
  have hlater : Script [.data [71, 69, 84, 32, 97], .again, .data []] [71, 69, 84, 32, 97] :=
    Script.data (by decide) (Script.again Script.fin)
  have hsame := h.executed (steady htogether) (steady hlater)
  rw [session_steady, session_steady] at hsame
  exact absurd hsame (by decide +kernel)

end CDbK8s.Server
