import CDbK8s.Client.Pipe

/-!
# What a pipe sends

`Relayed` is what the pipe sends for the reads of a stream, one after the other, in terms of what it
keeps in its receive buffer between two reads; `serve_relays` connects it to the calls of
`my_pipe_readwrite`. The stream is sent exactly if no read but the last leaves something behind.
-/

namespace CDbK8s.Client

open Base Sock Server Lib.Pieces List

variable {logLine : Bool} {bytes out rest x : Bytes} {stop : Stop}
variable {carry stream : Bytes} {left reads : List ReadResult}

/-! ## Streams in parts -/

/-- The results of the reads deliver the stream in parts. A read may find nothing, and the
end of the stream may follow. -/
inductive Splits : List ReadResult → Bytes → Prop where
  | none : Splits [] []
  | fin : Splits [.data []] []
  | again {reads : List ReadResult} {stream : Bytes} :
      Splits reads stream → Splits (.again :: reads) stream
  | data {part : Bytes} {reads : List ReadResult} {stream : Bytes} (hne : part ≠ []) :
      Splits reads stream → Splits (.data part :: reads) (part ++ stream)

theorem Splits.readable (h : Splits reads stream) : readable reads = stream.length := by
  induction h with
  | none => rfl
  | fin => rfl
  | again _ ih => simpa [Server.readable] using ih
  | data _ _ ih => simpa [Server.readable] using ih

theorem Splits.delivered (h : Splits reads stream) : delivered reads = stream := by
  induction h with
  | none => rfl
  | fin => rfl
  | again _ ih => exact ih
  | data hne _ ih => rw [Server.delivered, if_neg hne, ih]

/-- What one read loop does: it sees the end of the stream, or leaves the reads of what
follows. Without a byte it has used up a result. -/
structure Read (reads : List ReadResult) (stream : Bytes) (len : Nat) (left : List ReadResult)
    (bytes : Bytes) (stop : Stop) : Prop where
  loop : readLoop false reads len = (left, bytes, stop)
  bytes_le : bytes.length ≤ len
  left_le : left.length ≤ reads.length
  done : stop = .done → bytes ≠ []
  used : bytes = [] → reads ≠ [] → left.length < reads.length
  rest : (stop = .closed ∧ left = [] ∧ bytes = stream) ∨
    ((stop = .done ∨ stop = .again) ∧ ∃ rest, stream = bytes ++ rest ∧ Splits left rest)

theorem readLoop_splits (h : Splits reads stream) {len : Nat} (hlen : 0 < len) :
    ∃ left bytes stop, Read reads stream len left bytes stop := by
  induction h generalizing len with
  | none =>
    have hloop : readLoop false [] len = ([], [], .again) := by
      rw [readLoop, if_neg (by omega)]
    exact ⟨[], [], .again, hloop, zero_le, le_rfl, (absurd · (by decide)),
      fun _ hne => absurd rfl hne, .inr ⟨.inr rfl, [], rfl, Splits.none⟩⟩
  | fin =>
    exact ⟨[], [], .closed, readLoop_eof [] hlen, zero_le, zero_le,
      (absurd · (by decide)), fun _ _ => Nat.zero_lt_one, .inl ⟨rfl, rfl, rfl⟩⟩
  | @again reads stream h _ =>
    exact ⟨reads, [], .again, readLoop_again _ hlen, zero_le, Nat.le_succ _,
      (absurd · (by decide)), fun _ _ => Nat.lt_succ_self _,
      .inr ⟨.inr rfl, stream, rfl, h⟩⟩
  | @data part reads stream hne h ih =>
    have hloop := readLoop_part hne reads hlen
    by_cases hlong : part.length > len
    · -- the part itself does not fit
      rw [if_pos hlong] at hloop
      have hdrop : part.drop len ≠ [] := by
        simp
        omega
      have htake : part.take len ≠ [] := by
        simp [← length_pos_iff]
        omega
      refine ⟨_, _, _, hloop, length_take_le _ _, le_rfl, fun _ => htake,
        fun hnil => absurd hnil htake,
        .inr ⟨.inl rfl, part.drop len ++ stream, ?_, Splits.data hdrop h⟩⟩
      simp [← append_assoc]
    · rw [if_neg hlong] at hloop
      have hsome : ∀ more : Bytes, part ++ more ≠ [] := fun more hnil =>
        hne (append_eq_nil_iff.1 hnil).1
      by_cases hexact : len - part.length = 0
      · have hzero : readLoop false reads 0 = (reads, [], .done) := by
          cases reads with
          | nil => rfl
          | cons r rs => exact readLoop_zero (cons_ne_nil r rs)
        rw [hexact, hzero] at hloop
        exact ⟨_, _, _, hloop, by simp; omega, Nat.le_succ _, fun _ => hsome [],
          fun hnil => absurd hnil (hsome []), .inr ⟨.inl rfl, stream, by simp, h⟩⟩
      · obtain ⟨left, bytes, stop, hread⟩ := @ih (len - part.length) (by omega)
        rw [hread.loop] at hloop
        have hbytes := hread.bytes_le
        refine ⟨left, part ++ bytes, stop, hloop, by rw [length_append]; omega,
          Nat.le_succ_of_le hread.left_le, fun _ => hsome _,
          fun hnil => absurd hnil (hsome bytes), ?_⟩
        rcases hread.rest with ⟨hstop, hnil, rfl⟩ | ⟨hstop, rest, rfl, hsplits⟩
        · exact .inl ⟨hstop, hnil, rfl⟩
        · exact .inr ⟨hstop, rest, (append_assoc _ _ _).symm, hsplits⟩

/-! ## Lines of a stream and of a part of it -/

theorem length_stripCr_append (f l : Bytes) : (stripCr l).length ≤ (stripCr (f ++ l)).length := by
  cases l with
  | nil => exact zero_le
  | cons a l =>
    have hlast : (f ++ a :: l).getLast? = (a :: l).getLast? := by
      rw [List.getLast?_append_of_ne_nil f (cons_ne_nil a l)]
    unfold stripCr
    rw [hlast]
    split
    · rw [length_dropLast, length_dropLast, length_append]
      omega
    · rw [length_append]
      omega

theorem NoLongLine.part {a r : Bytes} (h : NoLongLine (a ++ (x ++ r))) :
    ∀ line ∈ commands x, line.length ≤ MAX_LINE := by
  have hlines := h.lines
  rw [commands_append] at hlines
  rcases free_or_sep 10 x with hfree | ⟨l, y, hl, rfl⟩
  · rw [commands_free hfree]
    exact nofun
  · have hall : 10 ∉ fragment a ++ l := by
      rw [mem_append, not_or]
      exact ⟨notMem_fragment a, hl⟩
    have hcut : fragment a ++ (l ++ 10 :: y ++ r) = (fragment a ++ l) ++ 10 :: (y ++ r) := by simp
    rw [hcut, commands_line hall, commands_append y r] at hlines
    intro _ hline
    rw [commands_line hl] at hline
    rcases mem_cons.1 hline with rfl | hline
    · exact le_trans (length_stripCr_append _ l) (hlines _ (mem_append_right _ mem_cons_self))
    · exact hlines _ (mem_append_right _ (.tail _ (mem_append_left _ hline)))

theorem NoLongLine.end {a : Bytes} (h : NoLongLine (a ++ x)) : (fragment x).length ≤ MAX_LINE := by
  have hrest := h.rest
  rw [fragment_append] at hrest
  rcases free_or_sep 10 x with hfree | ⟨l, y, hl, rfl⟩
  · have hall : 10 ∉ fragment a ++ x := by
      rw [mem_append, not_or]
      exact ⟨notMem_fragment a, hfree⟩
    rw [fragment_free hall, length_append] at hrest
    rw [fragment_free hfree]
    omega
  · have hall : 10 ∉ fragment a ++ l := by
      rw [mem_append, not_or]
      exact ⟨notMem_fragment a, hl⟩
    rw [← append_assoc, fragment_line hall] at hrest
    rwa [fragment_line hl]

theorem NoLongLine.mem_of_long {a r : Bytes} (h : NoLongLine (a ++ (x ++ r)))
    (hlong : (fragment x).length > MAX_LINE) : 10 ∈ r := by
  by_contra hfree
  have hall : 10 ∉ fragment x ++ r := by
    rw [mem_append, not_or]
    exact ⟨notMem_fragment x, hfree⟩
  have hend := h.end
  simp [fragment_append, fragment_free hall] at hend
  omega

/-! ## What is sent -/

/-- What a pipe with `carry` in its receive buffer sends for some reads. -/
inductive Relayed (logLine : Bool) : Bytes → List ReadResult → Bytes → Prop where
  | idle (carry : Bytes) : Relayed logLine carry [] []
  | fin {carry : Bytes} {reads left : List ReadResult} :
      readLoop false reads (BUFSIZ - carry.length) = (left, [], .closed) →
      Relayed logLine carry reads []
  | wait {carry out : Bytes} {reads left : List ReadResult} :
      readLoop false reads (BUFSIZ - carry.length) = (left, [], .again) →
      Relayed logLine carry left out → Relayed logLine carry reads out
  | last {carry bytes : Bytes} {reads left : List ReadResult} :
      readLoop false reads (BUFSIZ - carry.length) = (left, bytes, .closed) → bytes ≠ [] →
      Relayed logLine carry reads (carry ++ bytes)
  | abort {carry bytes : Bytes} {reads left : List ReadResult} {stop : Stop} :
      readLoop false reads (BUFSIZ - carry.length) = (left, bytes, stop) → stop ≠ .closed →
      bytes ≠ [] → logLine = true → (fragment (carry ++ bytes)).length > MAX_LINE →
      Relayed logLine carry reads (carry ++ bytes)
  | next {carry bytes out : Bytes} {reads left : List ReadResult} {stop : Stop} :
      readLoop false reads (BUFSIZ - carry.length) = (left, bytes, stop) → stop ≠ .closed →
      bytes ≠ [] → (logLine = true → (fragment (carry ++ bytes)).length ≤ MAX_LINE) →
      Relayed logLine (kept logLine false (carry ++ bytes)) left out →
      Relayed logLine carry reads (carry ++ bytes ++ out)

theorem notMem_kept (logLine fin : Bool) (x : Bytes) : 10 ∉ kept logLine fin x := by
  unfold kept
  split
  · exact notMem_fragment x
  · exact not_mem_nil

theorem kept_suffix (logLine fin : Bool) (front x rest : Bytes) :
    ∃ mid, front ++ (x ++ rest) = front ++ mid ++ (kept logLine fin x ++ rest) := by
  have hkept : ∃ mid, x = mid ++ kept logLine fin x := by
    unfold kept
    split
    · obtain ⟨mid, hmid, -⟩ := exists_front 10 x
      exact ⟨mid, hmid⟩
    · exact ⟨x, (append_nil x).symm⟩
  obtain ⟨mid, hmid⟩ := hkept
  refine ⟨mid, ?_⟩
  calc
    front ++ _ = front ++ (mid ++ kept _ fin x ++ rest) := by rw [← hmid]
      _ = front ++ mid ++ _ := by simp only [append_assoc]

theorem length_kept_le (h : logLine = true → (fragment x).length ≤ MAX_LINE) (fin : Bool) :
    (kept logLine fin x).length ≤ MAX_LINE := by
  unfold kept
  split
  · rename_i hcond
    exact h hcond.1
  · exact zero_le

theorem serve_idle (logLine : Bool) (hcarry : carry.length ≤ MAX_LINE) (writes : List WriteResult)
    (sent : Bytes) (logged : List Bytes) (n : Nat) :
    serve logLine n (pipeAt carry false [] writes sent logged) =
      some (pipeAt carry false [] writes sent logged) := by
  have hroom : BUFSIZ - carry.length ≠ 0 := by
    have : MAX_LINE < BUFSIZ := by decide
    omega
  have hloop : readLoop false [] (BUFSIZ - carry.length) = ([], [], .again) := by
    rw [readLoop, if_neg hroom]
  induction n with
  | zero => rfl
  | succ n ih =>
    rw [serve_exit (pass_nothing hloop (.inr (.inl rfl)) (by omega) rfl logLine _ _ _) rfl]
    exact ih

theorem serve_last {p q : Pipe} {rc : Int} (h : pass logLine p = some (.inl (.rc rc, q)))
    (hin : p.pollIn = true) (hneg : rc < 0) (hrc : rc ≠ SOCK_AGAIN) (n : Nat) :
    ∃ q', serve logLine (n + 1) p = some q' ∧ q'.output = q.output := by
  rw [serve_exit h hin]
  unfold afterLoop
  dsimp only
  rw [if_pos hneg, if_neg hrc]
  split
  · exact ⟨_, serve_closed rfl n, rfl⟩
  · exact ⟨_, serve_closed rfl n, rfl⟩

/-- The calls of `my_pipe_readwrite` send what is relayed of the rest of the stream. -/
def Sends (logLine : Bool) (carry : Bytes) (reads : List ReadResult) (rest : Bytes) : Prop :=
  ∀ (writes : List WriteResult) (n : Nat) (sent : Bytes) (logged : List Bytes),
    InFull rest.length writes → reads.length ≤ n →
    ∃ q out, serve logLine n (pipeAt carry false reads writes sent logged) = some q ∧
      q.output.accepted = sent ++ out ∧ Relayed logLine carry reads out

section
variable {logLine : Bool} {carry bytes rest : Bytes} {reads left : List ReadResult} {stop : Stop}

theorem sends_wait (hfit : carry.length ≤ BUFSIZ)
    (h : readLoop false reads (BUFSIZ - carry.length) = (left, [], .again))
    (hused : left.length < reads.length) (hleft : Sends logLine carry left rest) :
    Sends logLine carry reads rest := by
  intro writes n sent logged hfull _
  obtain ⟨n, rfl⟩ := Nat.exists_eq_succ_of_ne_zero (by omega : n ≠ 0)
  obtain ⟨q, out, hq, hout, hrel⟩ := hleft writes n sent logged hfull (by omega)
  refine ⟨q, out, ?_, hout, Relayed.wait h hrel⟩
  rw [serve_exit (pass_nothing h (.inr (.inl rfl)) hfit rfl logLine _ _ _) rfl]
  exact hq

theorem sends_fin (hfit : carry.length ≤ BUFSIZ)
    (h : readLoop false reads (BUFSIZ - carry.length) = (left, [], .closed))
    (hne : reads ≠ []) : Sends logLine carry reads rest := by
  intro writes n sent logged _ _
  have hpos := length_pos_iff.2 hne
  obtain ⟨n, rfl⟩ := Nat.exists_eq_succ_of_ne_zero (by omega : n ≠ 0)
  obtain ⟨q, hq, hout⟩ := serve_last
    (pass_nothing h (.inr (.inr rfl)) hfit rfl logLine _ _ _) rfl
    (by decide) (by decide) n
  exact ⟨q, [], hq, by rw [hout]; exact (append_nil _).symm, Relayed.fin h⟩

variable (h : readLoop false reads (BUFSIZ - carry.length) = (left, bytes, stop))
variable (hne : bytes ≠ []) (hlen : (carry ++ bytes).length ≤ BUFSIZ)
variable (hlines : ∀ line ∈ commands (carry ++ bytes), line.length ≤ MAX_LINE)
variable (hreads : reads ≠ [])
include h hne hlen hlines hreads

theorem sends_last (hstop : stop = .closed)
    (hshort : (fragment (carry ++ bytes)).length ≤ MAX_LINE) (hless : readable left < readable reads) :
    Sends logLine carry reads bytes := by
  subst hstop
  intro _ n sent logged hfull _
  have hpos := length_pos_iff.2 hreads
  obtain ⟨n, rfl⟩ := Nat.exists_eq_succ_of_ne_zero (by omega : n ≠ 0)
  obtain ⟨m, ws, rfl, hm, -⟩ := (hfull.le (length_pos_iff.2 hne)).cons
  obtain ⟨logged', hpass⟩ := pass_next h (.inr (.inr rfl)) hne hlen hlines (fun _ => hshort) hm
    ws sent logged
  obtain ⟨q, hq, hout⟩ := serve_last (pass_fin logLine _ left ws _ logged')
    rfl (by decide) (by decide) n
  exact ⟨q, carry ++ bytes, serve_next hpass rfl rfl hless hq, by rw [hout]; rfl,
    Relayed.last h hne⟩

theorem sends_abort (hstop : stop = .done ∨ stop = .again) (hlog : logLine = true)
    (hlong : (fragment (carry ++ bytes)).length > MAX_LINE) :
    Sends logLine carry reads (bytes ++ rest) := by
  subst hlog
  intro _ n sent logged hfull _
  have hpos := length_pos_iff.2 hreads
  have hsome := length_pos_iff.2 hne
  obtain ⟨n, rfl⟩ := Nat.exists_eq_succ_of_ne_zero (by omega : n ≠ 0)
  obtain ⟨m, ws, rfl, hm, -⟩ := (hfull.le (by rw [length_append]; omega : 0 + 1 ≤ _)).cons
  obtain ⟨p, hpass, hsent⟩ := pass_abort h (hstop.imp_right .inl) hne hlen hlines hlong hm ws
    sent logged
  obtain ⟨q, hq, hout⟩ := serve_last hpass rfl (by decide) (by decide) n
  refine ⟨q, carry ++ bytes, hq, by rw [hout, hsent], Relayed.abort h ?_ hne rfl hlong⟩
  rcases hstop with rfl | rfl <;> decide

theorem sends_next (hstop : stop = .done ∨ stop = .again)
    (hshort : logLine = true → (fragment (carry ++ bytes)).length ≤ MAX_LINE)
    (hless : readable left < readable reads) (hle : left.length ≤ reads.length)
    (hleft : Sends logLine (kept logLine false (carry ++ bytes)) left rest) :
    Sends logLine carry reads (bytes ++ rest) := by
  intro _ n sent logged hfull _
  have hpos := length_pos_iff.2 hreads
  have hsome := length_pos_iff.2 hne
  obtain ⟨n, rfl⟩ := Nat.exists_eq_succ_of_ne_zero (by omega : n ≠ 0)
  obtain ⟨m, ws, rfl, hm, hws⟩ :=
    (hfull.le (by rw [length_append]; omega : rest.length + 1 ≤ _)).cons
  have hopen : (stop == .closed) = false := by
    rcases hstop with rfl | rfl <;> rfl
  obtain ⟨logged', hpass⟩ := pass_next h (hstop.imp_right .inl) hne hlen hlines hshort hm ws sent
    logged
  rw [hopen] at hpass
  obtain ⟨q, out, hq, hout, hrel⟩ := hleft ws (n + 1) _ logged' hws (by omega)
  refine ⟨q, carry ++ bytes ++ out, serve_next hpass rfl rfl hless hq, ?_,
    Relayed.next h ?_ hne hshort hrel⟩
  · simp [hout]
  · rcases hstop with rfl | rfl <;> decide

end

theorem serve_relays (logLine : Bool) (hline : NoLongLine stream) (size : Nat) :
    ∀ {front carry rest : Bytes} {reads : List ReadResult}, rest.length + reads.length = size →
      stream = front ++ (carry ++ rest) → Splits reads rest → carry.length ≤ MAX_LINE →
      Sends logLine carry reads rest := by
  induction size using Nat.strong_induction_on with
  | _ size ih =>
    intro front carry rest reads hsize hstream hsplits hcarry
    have hmax : MAX_LINE < BUFSIZ := by decide
    by_cases hnone : reads = []
    · subst hnone
      exact fun writes n sent logged _ _ => ⟨_, [], serve_idle _ hcarry writes sent logged n,
        (append_nil _).symm, Relayed.idle _⟩
    have hroom : 0 < BUFSIZ - carry.length := by omega
    obtain ⟨left, bytes, stop, hread⟩ := readLoop_splits hsplits hroom
    have hreadable := hsplits.readable
    have hleft := hread.left_le
    by_cases hnil : bytes = []
    · have hused := hread.used hnil hnone
      rcases hread.rest with ⟨rfl, -⟩ | ⟨hstop, rest', hrest, hsplits'⟩
      · exact sends_fin (by omega) (hnil ▸ hread.loop) hnone
      · rcases hstop with rfl | rfl
        · exact absurd hnil (hread.done rfl)
        · rw [hnil] at hrest
          subst hrest
          exact sends_wait (by omega) (hnil ▸ hread.loop) hused
            (ih _ (by omega) rfl hstream hsplits' hcarry)
    · have hpos := length_pos_iff.2 hnil
      have hlen : (carry ++ bytes).length ≤ BUFSIZ := by
        have := hread.bytes_le
        rw [length_append]
        omega
      rcases hread.rest with ⟨hstop, rfl, rfl⟩ | ⟨hstop, rest', rfl, hsplits'⟩
      · subst hstream
        have hline' := hline
        rw [← append_nil (carry ++ bytes)] at hline'
        exact sends_last hread.loop hnil hlen hline'.part hnone hstop hline.end
          (by rw [hreadable]; exact hpos)
      · have hcut : stream = front ++ (carry ++ bytes ++ rest') := by
          simp [hstream]
        subst hcut
        have hless : readable left < readable reads := by
          simp [hreadable, hsplits'.readable]
          omega
        by_cases hlong : logLine = true ∧ (fragment (carry ++ bytes)).length > MAX_LINE
        · exact sends_abort hread.loop hnil hlen hline.part hnone hstop hlong.1 hlong.2
        · have hshort : logLine = true → (fragment (carry ++ bytes)).length ≤ MAX_LINE :=
            fun hlog => not_lt.1 fun hlt => hlong ⟨hlog, hlt⟩
          obtain ⟨mid, hmid⟩ := kept_suffix _ false front _ _
          rw [length_append] at hsize
          exact sends_next hread.loop hnil hlen hline.part hnone hstop hshort hless hleft
            (ih _ (by omega) rfl hmid hsplits' (length_kept_le hshort false))

/-! ## When it is the stream -/

theorem read_of_loop (h : Splits reads stream) (hcarry : carry.length ≤ MAX_LINE)
    (hloop : readLoop false reads (BUFSIZ - carry.length) = (left, bytes, stop)) :
    Read reads stream (BUFSIZ - carry.length) left bytes stop := by
  have hmax : MAX_LINE < BUFSIZ := by decide
  obtain ⟨left', bytes', stop', hread⟩ := readLoop_splits h (by omega : 0 < BUFSIZ - carry.length)
  have heq := hread.loop.symm.trans hloop
  obtain ⟨rfl, rfl, rfl⟩ : left' = left ∧ bytes' = bytes ∧ stop' = stop := by simpa using heq
  exact hread

theorem rest_of_loop (h : Splits reads stream) (hcarry : carry.length ≤ MAX_LINE)
    (hloop : readLoop false reads (BUFSIZ - carry.length) = (left, bytes, stop))
    (hstop : stop ≠ .closed) : ∃ rest, stream = bytes ++ rest ∧ Splits left rest := by
  rcases (read_of_loop h hcarry hloop).rest with ⟨hclosed, -⟩ | ⟨-, hrest⟩
  · exact absurd hclosed hstop
  · exact hrest

theorem all_of_loop (h : Splits reads stream) (hcarry : carry.length ≤ MAX_LINE)
    (hloop : readLoop false reads (BUFSIZ - carry.length) = (left, bytes, .closed)) :
    left = [] ∧ bytes = stream := by
  rcases (read_of_loop h hcarry hloop).rest with ⟨-, hall⟩ | ⟨hopen | hopen, -⟩
  · exact hall
  · cases hopen
  · cases hopen

theorem Relayed.plain (h : Relayed false carry reads out) (hcarry : carry = [])
    (hsplits : Splits reads rest) : out = rest := by
  induction h generalizing rest with
  | idle _ =>
    cases hsplits
    rfl
  | fin hloop => exact (all_of_loop hsplits (by simp [hcarry]) hloop).2
  | wait hloop _ ih =>
    obtain ⟨rest', rfl, hleft⟩ := rest_of_loop hsplits (by simp [hcarry]) hloop (by decide)
    exact ih hcarry hleft
  | last hloop =>
    subst hcarry
    exact (all_of_loop hsplits zero_le hloop).2
  | abort _ _ _ hlog => cases hlog
  | next hloop hstop _ _ _ ih =>
    subst hcarry
    obtain ⟨rest', rfl, hleft⟩ := rest_of_loop hsplits zero_le hloop hstop
    rw [ih rfl hleft]
    rfl

theorem Relayed.nothing (h : Relayed logLine carry reads out) (hcarry : carry.length ≤ MAX_LINE)
    (hsplits : Splits reads []) : out = [] := by
  induction h with
  | idle => rfl
  | fin => rfl
  | wait hloop _ ih =>
    obtain ⟨rest', hrest, hleft⟩ := rest_of_loop hsplits hcarry hloop (by decide)
    exact ih hcarry (hrest ▸ hleft)
  | last hloop hne => exact absurd (all_of_loop hsplits hcarry hloop).2 hne
  | abort hloop hstop hne =>
    obtain ⟨rest', hrest, -⟩ := rest_of_loop hsplits hcarry hloop hstop
    exact absurd (append_eq_nil_iff.1 hrest.symm).1 hne
  | next hloop hstop hne =>
    obtain ⟨rest', hrest, -⟩ := rest_of_loop hsplits hcarry hloop hstop
    exact absurd (append_eq_nil_iff.1 hrest.symm).1 hne

/-- What is kept is sent once more, unless the stream is given up before a line feed. -/
theorem Relayed.again {logLine : Bool} {carry out : Bytes} {reads : List ReadResult}
    (h : Relayed logLine carry reads out) {front rest : Bytes}
    (hline : NoLongLine (front ++ (carry ++ rest))) (hcarry : carry.length ≤ MAX_LINE)
    (hfree : 10 ∉ carry) (hsplits : Splits reads rest) :
    rest = [] ∨ out.count 10 < rest.count 10 ∨ carry.length + rest.length ≤ out.length := by
  induction h generalizing front rest with
  | idle carry =>
    cases hsplits
    exact .inl rfl
  | fin hloop => exact .inl (all_of_loop hsplits hcarry hloop).2.symm
  | wait hloop _ ih =>
    obtain ⟨rest', rfl, hleft⟩ := rest_of_loop hsplits hcarry hloop (by decide)
    exact ih hline hcarry hfree hleft
  | last hloop =>
    obtain ⟨-, rfl⟩ := all_of_loop hsplits hcarry hloop
    exact .inr (.inr (by rw [length_append]))
  | @abort carry _ _ _ stop hloop hstop hne _ hlong =>
    obtain ⟨rest', rfl, hleft⟩ := rest_of_loop hsplits hcarry hloop hstop
    rw [← append_assoc carry] at hline
    have hmem := count_pos_iff.2 (hline.mem_of_long hlong)
    refine .inr (.inl ?_)
    rw [count_append, count_append, count_eq_zero.2 hfree]
    omega
  | @next carry bytes _ _ _ _ hloop hstop hne hshort _ ih =>
    obtain ⟨rest', rfl, hleft⟩ := rest_of_loop hsplits hcarry hloop hstop
    obtain ⟨mid, hmid⟩ := kept_suffix _ false front _ _
    rw [← append_assoc carry, hmid] at hline
    have hrec := ih hline (length_kept_le hshort false) (notMem_kept _ _ _) hleft
    rw [count_append, count_append, count_append, count_eq_zero.2 hfree]
    rw [length_append, length_append, length_append]
    rcases hrec with rfl | hcount | hlength
    · exact .inr (.inr (by simp))
    · exact .inr (.inl (by omega))
    · exact .inr (.inr (by omega))

/-- What one call of `sock_recv` reads into an empty buffer. -/
def batch (reads : List ReadResult) : Bytes := (readLoop false reads BUFSIZ).2.1

/-- The results that are left behind a batch. -/
def afterBatch (reads : List ReadResult) : List ReadResult := (readLoop false reads BUFSIZ).1

/-- The bytes end with a line, or with the prompt. -/
def AtLineEnd (x : Bytes) : Prop := fragment x = [] ∨ fragment x = prompt

/-- Every batch that is followed by another one ends with a line, or with the prompt. -/
def LinedUp (reads : List ReadResult) : Prop :=
  ∀ k, AtLineEnd (batch (afterBatch^[k] reads)) ∨ delivered (afterBatch^[k + 1] reads) = []

theorem linedUp_iff (reads : List ReadResult) :
    LinedUp reads ↔ (AtLineEnd (batch reads) ∨ delivered (afterBatch reads) = []) ∧
      LinedUp (afterBatch reads) := by
  constructor
  · intro h
    exact ⟨h 0, fun k => h (k + 1)⟩
  · rintro ⟨hfirst, hrest⟩ k
    cases k with
    | zero => exact hfirst
    | succ k => exact hrest k

theorem kept_eq_nil_iff (x : Bytes) : kept true false x = [] ↔ AtLineEnd x := by
  unfold kept AtLineEnd
  by_cases hprompt : fragment x = prompt
  · simp [hprompt]
  · simp [hprompt]

theorem linedUp_of_splits_nil (h : Splits reads []) : LinedUp reads := by
  have hnext : ∀ {rs : List ReadResult}, Splits rs [] → Splits (afterBatch rs) [] := by
    intro rs hrs
    obtain ⟨left, bytes, stop, hread⟩ := readLoop_splits hrs (by decide : 0 < BUFSIZ)
    have hleft : afterBatch rs = left := by rw [afterBatch, hread.loop]
    rw [hleft]
    rcases hread.rest with ⟨-, rfl, -⟩ | ⟨-, rest, hrest, hsplits⟩
    · exact Splits.none
    · rwa [(append_eq_nil_iff.1 hrest.symm).2] at hsplits
  have hall : ∀ k, Splits (afterBatch^[k] reads) [] := by
    intro k
    induction k with
    | zero => exact h
    | succ k ih =>
      rw [Function.iterate_succ_apply']
      exact hnext ih
  exact fun k => .inr (hall _).delivered

theorem linedUp_loop
    (hloop : readLoop false reads (BUFSIZ - ([] : Bytes).length) = (left, bytes, stop))
    (hleft : Splits left rest) : LinedUp reads ↔ (AtLineEnd bytes ∨ rest = []) ∧ LinedUp left := by
  have hbatch : batch reads = bytes := congrArg (fun r => r.2.1) hloop
  have hafter : afterBatch reads = left := congrArg Prod.fst hloop
  rw [linedUp_iff, hbatch, hafter, hleft.delivered]

/-- With a log label the stream is sent as it is exactly if the batches end with lines. -/
theorem Relayed.logged_iff (h : Relayed true carry reads out) (hcarry : carry = []) {front : Bytes}
    (hline : NoLongLine (front ++ rest)) (hsplits : Splits reads rest) :
    out = rest ↔ LinedUp reads := by
  induction h generalizing front rest with
  | idle carry =>
    cases hsplits
    exact iff_of_true rfl (linedUp_of_splits_nil Splits.none)
  | fin hloop =>
    obtain ⟨-, rfl⟩ := all_of_loop hsplits (by simp [hcarry]) hloop
    exact iff_of_true rfl (linedUp_of_splits_nil hsplits)
  | wait hloop _ ih =>
    subst hcarry
    obtain ⟨rest', rfl, hleft⟩ := rest_of_loop hsplits zero_le hloop (by decide)
    rw [linedUp_loop hloop hleft]
    exact (ih rfl hline hleft).trans (and_iff_right (.inl (.inl rfl))).symm
  | last hloop hne =>
    subst hcarry
    obtain ⟨rfl, rfl⟩ := all_of_loop hsplits zero_le hloop
    rw [linedUp_loop hloop Splits.none]
    exact iff_of_true rfl ⟨.inr rfl, linedUp_of_splits_nil Splits.none⟩
  | @abort _ bytes _ _ _ hloop hstop hne _ hlong =>
    subst hcarry
    obtain ⟨rest', rfl, hleft⟩ := rest_of_loop hsplits zero_le hloop hstop
    have hmore : rest' ≠ [] := ne_nil_of_mem (hline.mem_of_long hlong)
    rw [linedUp_loop hloop hleft]
    refine iff_of_false (fun heq => hmore ?_) (fun hlined => ?_)
    · exact append_cancel_left (heq.symm.trans (append_nil _).symm)
    · rcases hlined.1 with (hnil | hprompt) | hnil
      · exact absurd hlong (by rw [nil_append, hnil]; decide)
      · exact absurd hlong (by rw [nil_append, hprompt]; decide)
      · exact hmore hnil
  | @next _ bytes out _ _ _ hloop hstop hne hshort hrel ih =>
    subst hcarry
    obtain ⟨rest', rfl, hleft⟩ := rest_of_loop hsplits zero_le hloop hstop
    rw [linedUp_loop hloop hleft, nil_append, append_cancel_left_eq]
    rw [nil_append] at hshort hrel ih
    by_cases hend : AtLineEnd bytes
    · rw [← append_assoc] at hline
      exact (ih ((kept_eq_nil_iff _).2 hend) hline hleft).trans
        (and_iff_right (.inl hend)).symm
    · by_cases hnil : rest' = []
      · subst hnil
        exact iff_of_true (hrel.nothing (length_kept_le hshort false) hleft)
          ⟨.inr rfl, linedUp_of_splits_nil hleft⟩
      · refine iff_of_false (fun heq => ?_) (fun hlined => hlined.1.elim hend hnil)
        -- what the batch leaves is sent twice
        subst heq
        have hkept : kept true false bytes ≠ [] := fun h => hend ((kept_eq_nil_iff _).1 h)
        have hpos := length_pos_iff.2 hkept
        obtain ⟨mid, hmid⟩ := kept_suffix true false front _ out
        rw [hmid] at hline
        rcases hrel.again hline (length_kept_le hshort false) (notMem_kept _ _ _) hleft with
          hout | hcount | hlength
        · exact hnil hout
        · exact lt_irrefl _ hcount
        · omega

/-! ## The client -/

/-- For every stream without a line that is too long, every way to cut it into reads and
all writes in full: what `my_pipe_readwrite` sends without a log label is the stream, and
what it sends with one is the same exactly if every batch that is followed by another one
ends with a line or with the prompt. -/
theorem logged_pipe_transparent_iff {reads : List ReadResult} {stream : Bytes}
    (hsplits : Splits reads stream) (hline : NoLongLine stream) {writes : List WriteResult}
    (hfull : InFull stream.length writes) {n : Nat} (hn : reads.length ≤ n) :
    ∃ plain logged, serve false n (myPipeInit reads writes) = some plain ∧
      serve true n (myPipeInit reads writes) = some logged ∧
      plain.output.accepted = stream ∧
      (logged.output.accepted = plain.output.accepted ∧ plain.output.accepted = stream ↔
        LinedUp reads) := by
  have hsends : ∀ logLine, Sends logLine [] reads stream := fun logLine =>
    serve_relays _ hline _ rfl (nil_append _).symm hsplits zero_le
  obtain ⟨plain, out, hplain, hout, hrel⟩ := hsends false writes n [] [] hfull hn
  obtain ⟨logged, out', hlogged, hout', hrel'⟩ := hsends true writes n [] [] hfull hn
  have hsent : plain.output.accepted = stream := by
    simp [hout, hrel.plain rfl hsplits]
  refine ⟨plain, logged, hplain, hlogged, hsent, ?_⟩
  rw [hsent, hout', and_iff_left rfl]
  exact hrel'.logged_iff rfl (nil_append stream ▸ hline) hsplits

/-- A response with the prompt, and a line in a read of its own. -/
def promptReads : List ReadResult := [.data [79, 75, 10, 62, 32], .again, .data [10]]

theorem logged_pipe_transparent_prompt :
    ∃ plain logged, serve false 3 (myPipeInit promptReads (replicate 6 (.wrote BUFSIZ))) =
        some plain ∧
      serve true 3 (myPipeInit promptReads (replicate 6 (.wrote BUFSIZ))) = some logged ∧
      logged.output.accepted = plain.output.accepted ∧
      plain.output.accepted = [79, 75, 10, 62, 32, 10] := by
  have hlast : Splits [.data [10]] [10] := Splits.data (by decide) Splits.none
  have hsplits : Splits promptReads [79, 75, 10, 62, 32, 10] :=
    Splits.data (by decide : ([79, 75, 10, 62, 32] : Bytes) ≠ []) (Splits.again hlast)
  have hfull : InFull 6 (replicate 6 (.wrote BUFSIZ)) :=
    ⟨Nat.le_refl 6, fun w hw => ⟨BUFSIZ, eq_of_mem_replicate hw, le_rfl⟩⟩
  have hfirst : readLoop false promptReads (BUFSIZ - ([] : Bytes).length) =
      ([.data [10]], [79, 75, 10, 62, 32], .again) := rfl
  have hsecond : readLoop false [.data [10]] (BUFSIZ - ([] : Bytes).length) =
      ([], [10], .again) := rfl
  have hlined : LinedUp promptReads := by
    rw [linedUp_loop hfirst hlast, linedUp_loop hsecond Splits.none]
    exact ⟨.inl (.inr rfl), .inr rfl, linedUp_of_splits_nil Splits.none⟩
  obtain ⟨plain, logged, hplain, hlogged, -, hiff⟩ := logged_pipe_transparent_iff hsplits
    ⟨by decide, by decide⟩ hfull (by decide : promptReads.length ≤ 3)
  exact ⟨plain, logged, hplain, hlogged, hiff.2 hlined⟩

/-- A line that comes in two reads. -/
def twoReads : List ReadResult := [.data [97, 98], .again, .data [99, 10]]

/-- With a log label the start of a line that comes in two reads is sent twice. -/
theorem logged_pipe_repeats : Splits twoReads [97, 98, 99, 10] ∧ NoLongLine [97, 98, 99, 10] ∧
      (serve false 3 (myPipeInit twoReads (replicate 4 (.wrote BUFSIZ)))).map
        (·.output.accepted) = some [97, 98, 99, 10] ∧
      (serve true 3 (myPipeInit twoReads (replicate 4 (.wrote BUFSIZ)))).map
        (·.output.accepted) = some [97, 98, 97, 98, 99, 10] := by
  have hlast : Splits [.data [99, 10]] [99, 10] := Splits.data (by decide) Splits.none
  have hsplits : Splits twoReads [97, 98, 99, 10] :=
    Splits.data (by decide : ([97, 98] : Bytes) ≠ []) (Splits.again hlast)
  refine ⟨hsplits, ⟨by decide, by decide⟩, ?_⟩
  decide +kernel

end CDbK8s.Client
