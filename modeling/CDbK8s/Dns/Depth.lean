import CDbK8s.Dns.Build

/-!
# How deep the pointers of a packet go

The encoder bounds the number of suffixes that it remembers, the decoder the number of jumps. Which
suffixes are remembered, and how many jumps are behind each, depends on the names of a message and
their order alone.
-/

namespace CDbK8s.Dns

open Base Lib.ByteMem List

/-! ## Suffixes without a packet -/

/-- The suffixes that are remembered, each with the jumps behind it. -/
abbrev Pool := List (Bytes × Nat)

/-- The first remembered suffix that a name is. -/
def Pool.find (pool : Pool) (name : Bytes) : Option (Bytes × Nat) :=
  pool.find? fun e => strcaseEq e.1 name

/-- The jumps behind a name: one more than behind the longest suffix of it that is remembered,
unless the name is over, for the decoder, before. -/
def Pool.jumpsLoop (pool : Pool) : Nat → Bytes → Nat
  | 0, _ => 0
  | fuel + 1, name =>
    if name = [] then 0
    else
      match pool.find name with
      | some e => e.2 + 1
      | none =>
        if name.idxOf dot = 0 then 0
        else pool.jumpsLoop fuel (name.drop (name.idxOf dot + 1))

/-- `Pool.jumpsLoop` with enough fuel. -/
def Pool.jumps (pool : Pool) (name : Bytes) : Nat := pool.jumpsLoop (name.length + 1) name

/-- The suffixes that a name adds to `len` remembered ones. -/
def Pool.added (pool : Pool) : Nat → Nat → Bytes → List Bytes
  | 0, _, _ => []
  | fuel + 1, len, name =>
    if name = [] then []
    else
      match pool.find name with
      | some _ => []
      | none =>
        if len < DNS_MAX_SUFFIX then
          name :: pool.added fuel (len + 1) (name.drop (name.idxOf dot + 1))
        else pool.added fuel len (name.drop (name.idxOf dot + 1))

/-- The pool after one more name. -/
def Pool.grow (pool : Pool) (name : Bytes) : Pool :=
  pool ++ (pool.added (name.length + 1) pool.length name).map fun n => (n, pool.jumps n)

def Pool.growAll (pool : Pool) (names : List Bytes) : Pool := names.foldl Pool.grow pool

/-- The jumps behind each of some names that are encoded one after another. -/
def Pool.jumpsAll : Pool → List Bytes → List Nat
  | _, [] => []
  | pool, name :: names => pool.jumps name :: (pool.grow name).jumpsAll names

theorem Pool.jumpsAll_append (pool : Pool) (names names' : List Bytes) :
    pool.jumpsAll (names ++ names') =
      pool.jumpsAll names ++ (pool.growAll names).jumpsAll names' := by
  induction names generalizing pool with
  | nil => rfl
  | cons _ names ih => exact congrArg _ (ih _)

theorem Pool.growAll_append (pool : Pool) (names names' : List Bytes) :
    pool.growAll (names ++ names') = (pool.growAll names).growAll names' :=
  foldl_append

/-! ## The table and the pool -/

/-- The table has the suffixes of the pool, and each reads back with the jumps of the pool. -/
def Mirrors (pkt : Pkt) (table : List Suffix) (pool : Pool) : Prop :=
  List.Forall₂ (fun s e => s.name = e.1 ∧ Entry pkt e.2 s) table pool

section
variable {pkt : Pkt} {table : List Suffix} {pool : Pool} {start : Nat}

theorem Entry.unique {jumps jumps' : Nat} {s : Suffix} (h : Entry pkt jumps s)
    (h' : Entry pkt jumps' s) : jumps = jumps' := by
  obtain ⟨text, stop, hwire, -⟩ := h.wire
  obtain ⟨text', stop', hwire', -⟩ := h'.wire
  exact (hwire.unique hwire').2.1

variable (h : Mirrors pkt table pool)
include h

theorem Mirrors.entry : ∀ s ∈ table, ∃ jumps, Entry pkt jumps s := by
  induction h with
  | nil => exact nofun
  | cons hhead _ ih =>
    intro s hs
    rcases mem_cons.1 hs with rfl | hs
    · exact ⟨_, hhead.2⟩
    · exact ih s hs

theorem Mirrors.find (hstart : ∀ s ∈ table, s.offset < start) (name : Bytes) :
    (findEntry start table name = none ∧ pool.find name = none) ∨
      ∃ s e, findEntry start table name = some s ∧ pool.find name = some e ∧ s ∈ table ∧
        Entry pkt e.2 s := by
  induction h with
  | nil => exact .inl ⟨rfl, rfl⟩
  | @cons s e _ _ hhead _ ih =>
    have hlt := hstart s mem_cons_self
    unfold findEntry Pool.find at *
    rw [List.find?_cons, List.find?_cons, decide_eq_true hlt, hhead.1]
    cases hsame : strcaseEq e.1 name with
    | true => exact .inr ⟨s, e, rfl, rfl, mem_cons_self, hhead.2⟩
    | false =>
      rcases ih (fun s' hs' => hstart s' (.tail _ hs')) with hnone | hsome
      · exact .inl hnone
      · obtain ⟨s', e', hs', he', hmem, hentry⟩ := hsome
        exact .inr ⟨s', e', hs', he', .tail _ hmem, hentry⟩

theorem Mirrors.jumpsLoop_eq {depth : Nat → Nat} (hstart : ∀ s ∈ table, s.offset < start)
    (hdepth : ∀ s ∈ table, Entry pkt (depth s.offset) s) :
    ∀ (fuel : Nat) (name : Bytes),
      depthLoop depth start table fuel name = pool.jumpsLoop fuel name := by
  intro fuel
  induction fuel with
  | zero =>
    intro name
    rfl
  | succ fuel ih =>
    intro name
    rw [depthLoop, Pool.jumpsLoop]
    rcases h.find hstart name with ⟨htable, hpool⟩ | ⟨s, e, htable, hpool, hmem, hentry⟩
    · rw [htable, hpool, ih]
    · rw [htable, hpool]
      dsimp only
      rw [(hdepth s hmem).unique hentry]

omit h in
theorem Pool.added_step {name : Bytes} (hne : name ≠ []) (hnone : pool.find name = none)
    (fuel len wptr : Nat) :
    pool.added (fuel + 1) len name = (remembered len name wptr).map (fun s => s.name) ++
      pool.added fuel (len + (remembered len name wptr).length) (name.drop (name.idxOf dot + 1)) := by
  rw [Pool.added, if_neg hne, hnone]
  unfold remembered
  by_cases hroom : len < DNS_MAX_SUFFIX
  · simp only [if_pos hroom]
    rfl
  · simp only [if_neg hroom]
    rfl

/-- The table grows by the suffixes that the pool adds, at positions of the new name. -/
theorem Mirrors.table_added (hstart : ∀ s ∈ table, s.offset < start) :
    ∀ (fuel : Nat) (new : List Suffix) (wptr : Nat) (name : Bytes),
      (∀ s ∈ new, start ≤ s.offset) → start ≤ wptr → name.length < 256 →
      let r := encodeNameLoop start fuel (table ++ new) wptr name
      r.ok = true → wptr + r.wire.length ≤ 2 ^ 16 →
      ∃ more, r.table = table ++ new ++ more ∧
        more.map (fun s => s.name) = pool.added fuel (table ++ new).length name ∧
        ∀ s ∈ more, s.offset < wptr + r.wire.length := by
  intro fuel
  induction fuel with
  | zero =>
    intro new wptr name _ _ _ r _ _
    exact ⟨[], (append_nil _).symm, rfl, nofun⟩
  | succ fuel ih =>
    intro new wptr name hnew hle hlong r hok hmax
    rcases encodeNameLoop_cases hlong hok hmax with
      ⟨rfl, hr⟩ | ⟨hne, s, hfind, hr⟩ | ⟨hne, hnone, -, -, q, hrec, hr, hwlen⟩
    · exact ⟨[], (append_nil _).symm, rfl, nofun⟩
    · rw [findEntry_append _ hnew] at hfind
      rcases h.find hstart name with ⟨hnone, -⟩ | ⟨s', e, -, hpool, -⟩
      · exact absurd (hnone.symm.trans hfind) nofun
      · rw [show r = _ from hr, Pool.added, if_neg hne, hpool]
        exact ⟨[], (append_nil _).symm, rfl, nofun⟩
    · rw [findEntry_append _ hnew] at hnone
      rcases h.find hstart name with ⟨-, hpool⟩ | ⟨s', e, hsome, -⟩
      · have hdrop := length_drop_label hne
        change _ = wptr + r.wire.length at hwlen
        have hsingle := fun s => @mem_remembered (table ++ new).length wptr name s
        have hadded := Pool.added_step hne hpool fuel (table ++ new).length wptr
        generalize remembered (table ++ new).length name wptr = added at *
        rw [append_assoc] at hrec
        obtain ⟨more, htab, hnames, hoffset⟩ := ih _ (wptr + 1 + name.idxOf dot)
          (name.drop (name.idxOf dot + 1)) (by
            intro s hs
            rcases mem_append.1 hs with hs | hs
            · exact hnew s hs
            · rw [hsingle s hs]
              exact hle) (by omega) (by omega)
          (by rw [hrec]; exact (congrArg NameEnc.ok hr).symm.trans hok) (by rw [hrec]; omega)
        rw [hrec] at htab hoffset
        refine ⟨added ++ more, ?_, ?_, fun s hs => ?_⟩
        · rw [show r.table = _ from congrArg _ hr, htab]
          simp
        · rw [hadded, map_append, hnames, ← append_assoc, length_append]
        · rcases mem_append.1 hs with hs | hs
          · rw [hsingle s hs]
            show wptr < _
            omega
          · exact (hoffset s hs).trans_eq hwlen
      · exact absurd (hnone.symm.trans hsome) nofun

/-- One name: it reads back with the jumps of the pool, and the table mirrors the grown pool. -/
theorem Mirrors.name {p : Nat} {str : Bytes} (hstart : ∀ s ∈ table, s.offset < p) (hmin : 12 ≤ p)
    (hsmall : p < 2 ^ 14) (hshort : ShortStr str) (hok : (encodeName table p (some str)).ok = true)
    (hfit : p + (encodeName table p (some str)).wire.length ≤ pkt.len)
    (hheld : Holds pkt.buf p (encodeName table p (some str)).wire) :
    Written pkt (pool.jumps str) str p (encodeName table p (some str)).wire.length ∧
      Mirrors pkt (encodeName table p (some str)).table (pool.grow str) ∧
      ∀ s ∈ (encodeName table p (some str)).table,
        s.offset < p + (encodeName table p (some str)).wire.length := by
  have hmax : DNS_NAME_MAXSTR = 253 := rfl
  have hlen : str.length < 256 := by
    unfold ShortStr at hshort
    omega
  have hwlen : (encodeName table p (some str)).wire.length ≤ 255 := length_encodeName_le hshort
  obtain ⟨depth, hdepth⟩ := exists_depth h.entry
  have hjumps : ∀ n, depthOf depth p table n = pool.jumps n :=
    fun n => h.jumpsLoop_eq hstart hdepth _ n
  obtain ⟨hwritten, more, htable, hmore⟩ := encodeName_wire hdepth hmin hsmall hlen hok hfit hheld
  obtain ⟨more', htable', hnames, hoffset⟩ := h.table_added hstart (str.length + 1) [] p str
    nofun le_rfl hlen (by rw [append_nil]; exact hok)
    (by rw [append_nil]; show p + (encodeName table p (some str)).wire.length ≤ _; omega)
  rw [append_nil] at htable' hnames hoffset
  obtain rfl : more = more' := append_cancel_left (htable.symm.trans htable')
  refine ⟨hjumps str ▸ hwritten, ?_, ?_⟩
  · have hsame : table.length = pool.length := h.length_eq
    rw [htable, Pool.grow, ← hsame, ← hnames, map_map]
    refine rel_append h (forall₂_map_right_iff.2 (forall₂_same.2 ?_))
    intro s hs
    have hentry := (hmore s hs).2
    rw [hjumps] at hentry
    exact ⟨rfl, hentry⟩
  · intro s hs
    rw [htable] at hs
    rcases mem_append.1 hs with hs | hs
    · exact (hstart s hs).trans_le (Nat.le_add_right _ _)
    · exact hoffset s hs

end

/-! ## The names of a packet -/

section
variable {pkt : Pkt} {t t' : List Suffix} {pool : Pool} {p p' : Nat} {ps : List Piece}
  {calls : List (Nat × Bytes)}

/-- The table at `p` mirrors the pool, and its suffixes are in front of `p`. -/
structure Mirrored (pkt : Pkt) (t : List Suffix) (p : Nat) (pool : Pool) : Prop where
  mirrors : Mirrors pkt t pool
  front : ∀ s ∈ t, s.offset < p

theorem Mirrored.mono (h : Mirrored pkt t p pool) (hle : p ≤ p') : Mirrored pkt t p' pool :=
  ⟨h.mirrors, fun s hs => (h.front s hs).trans_le hle⟩

theorem length_encodeName_pos {str : Bytes} (hok : (encodeName t p (some str)).ok = true) :
    0 < (encodeName t p (some str)).wire.length := by
  show 0 < (encodeNameLoop p (str.length + 1) t p str).wire.length
  change (encodeNameLoop p (str.length + 1) t p str).ok = true at hok
  rw [encodeNameLoop] at hok ⊢
  split at hok
  · rename_i hnil
    rw [if_pos hnil]
    exact Nat.one_pos
  · rename_i hne
    rw [if_neg hne]
    split at hok
    · exact Nat.succ_pos _
    · dsimp only at hok ⊢
      split at hok
      · cases hok
      · rename_i hlabel
        rw [if_neg hlabel]
        exact Nat.succ_pos _

theorem Lays.jumps (h : Lays pkt.buf t p ps t' p' calls) (hpool : Mirrored pkt t p pool)
    (hmin : 12 ≤ p) (hsmall : p' ≤ 2 ^ 14) (hfit : p' ≤ pkt.len) (hshort : Short ps) :
    Mirrored pkt t' p' (pool.growAll (calls.map Prod.snd)) ∧
      List.Forall₂ (fun c j => ShortStr c.2 ∧ ∃ len, Written pkt j c.2 c.1 len) calls
        (pool.jumpsAll (calls.map Prod.snd)) := by
  induction h generalizing pool with
  | nil => exact ⟨hpool, .nil⟩
  | @name t _ p _ str _ _ hok hheld hrest ih =>
    have hle := hrest.le
    have hstr := hshort str mem_cons_self
    have hwire := length_encodeName_pos hok
    obtain ⟨hwritten, hmirrors, hfront⟩ :=
      hpool.mirrors.name hpool.front hmin (by omega) hstr hok (by omega) hheld
    obtain ⟨hnext, hall⟩ := ih ⟨hmirrors, hfront⟩ (by omega) hsmall hfit
      (fun str' hmem => hshort str' (.tail _ hmem))
    exact ⟨hnext, .cons ⟨hstr, _, hwritten⟩ hall⟩
  | bytes _ _ ih =>
    exact ih (hpool.mono (Nat.le_add_right _ _)) (by omega) hsmall hfit
      (fun str hmem => hshort str (.tail _ hmem))
  | gap _ ih =>
    exact ih (hpool.mono (Nat.le_add_right _ _)) (by omega) hsmall hfit
      (fun str hmem => hshort str (.tail _ hmem))

/-- The names among some pieces. -/
def pieceNames : List Piece → List Bytes
  | [] => []
  | .name str :: ps => str :: pieceNames ps
  | _ :: ps => pieceNames ps

theorem Lays.names (h : Lays pkt.buf t p ps t' p' calls) : calls.map Prod.snd = pieceNames ps := by
  induction h with
  | nil => rfl
  | name _ _ _ ih => exact congrArg _ ih
  | bytes _ _ ih => exact ih
  | gap _ ih => exact ih

/-- The names of a record: the owner, and those of the RDATA. -/
def Rr.names (ov : Overlay) (rr : Rr) : List Bytes :=
  cstring rr.name :: pieceNames (rdataPieces ov rr)

/-- The names of a message, in the order in which they are encoded. -/
def Msg.allNames (ov : Overlay) (m : Msg) : List Bytes :=
  m.questions.map (fun q => cstring q.qname) ++ m.an.recs.flatMap (Rr.names ov) ++
    m.ns.recs.flatMap (Rr.names ov) ++ m.ar.recs.flatMap (Rr.names ov)

theorem Rr.Short.pieces {ov : Overlay} {rr : Rr} (h : rr.Short ov) (rdlen : UInt16) :
    Dns.Short (rrPieces ov rr rdlen) := by
  intro str hmem
  rcases mem_cons.1 hmem with hname | hmem
  · cases hname
    exact h.1
  · rcases mem_cons.1 hmem with hbytes | hmem
    · cases hbytes
    · exact h.2 str hmem

theorem LaysRrs.jumps {ov : Overlay} {recs : List Rr}
    (h : LaysRrs pkt.buf ov t p recs t' p' calls) (hpool : Mirrored pkt t p pool)
    (hmin : 12 ≤ p) (hsmall : p' ≤ 2 ^ 14) (hfit : p' ≤ pkt.len) (hshort : ∀ rr ∈ recs, rr.Short ov) :
    calls.map Prod.snd = recs.flatMap (Rr.names ov) ∧
      Mirrored pkt t' p' (pool.growAll (calls.map Prod.snd)) ∧
      List.Forall₂ (fun c j => ShortStr c.2 ∧ ∃ len, Written pkt j c.2 c.1 len) calls
        (pool.jumpsAll (calls.map Prod.snd)) := by
  induction h generalizing pool with
  | nil => exact ⟨rfl, hpool, .nil⟩
  | @cons t _ _ p _ _ rr _ rdlen _ _ _ hrr hrest ih =>
    have hle := hrr.le
    have hle' := hrest.le
    obtain ⟨hnext, hall⟩ := hrr.jumps hpool hmin (by omega) (by omega)
      ((hshort rr mem_cons_self).pieces _)
    obtain ⟨hnames, hlast, hall'⟩ := ih hnext (by omega) hsmall hfit
      (fun rr' hrr' => hshort rr' (.tail _ hrr'))
    refine ⟨?_, ?_, ?_⟩
    · rw [map_append, hnames, hrr.names]
      rfl
    · rw [map_append, Pool.growAll_append]
      exact hlast
    · rw [map_append, Pool.jumpsAll_append]
      exact rel_append hall hall'

theorem questions_names (quests : List Qd) :
    pieceNames (qdPieces quests) = quests.map fun q => cstring q.qname := by
  induction quests with
  | nil => rfl
  | cons q quests ih => exact congrArg _ ih

theorem questions_short {quests : List Qd} (h : ∀ q ∈ quests, ShortStr (cstring q.qname)) :
    Short (qdPieces quests) := by
  intro _ hmem
  obtain ⟨q, hq, hmem⟩ := mem_flatMap.1 hmem
  rcases mem_cons.1 hmem with hname | hmem
  · cases hname
    exact h q hq
  · simp at hmem

theorem MsgLaid.jumps {ov : Overlay} {m : Msg} (h : MsgLaid pkt.buf ov m pkt.len calls)
    (hm : m.Stored ov) :
    List.Forall₂ (fun c j => ShortStr c.2 ∧ ∃ len, Written pkt j c.2 c.1 len) calls
      (Pool.jumpsAll [] (m.allNames ov)) := by
  have hsmall := h.small hm
  have hshort := hm.short
  obtain ⟨t1, p1, c1, t2, p2, c2, t3, p3, c3, t4, c4, hqd, han, hns, har, rfl⟩ := h.body
  have hle1 := hqd.le
  have hle2 := han.le
  have hle3 := hns.le
  have hle4 := har.le
  have hhdr : DNS_HDR_LEN = 12 := rfl
  have hstart : Mirrored pkt [] DNS_HDR_LEN [] := ⟨.nil, nofun⟩
  obtain ⟨hpool1, hall1⟩ := hqd.jumps hstart (by omega) (by omega) (by omega)
    (questions_short hshort.quests)
  obtain ⟨hnames2, hpool2, hall2⟩ := han.jumps hpool1 (by omega) (by omega) (by omega) (hshort.recs .an)
  obtain ⟨hnames3, hpool3, hall3⟩ := hns.jumps hpool2 (by omega) (by omega) (by omega) (hshort.recs .ns)
  obtain ⟨hnames4, -, hall4⟩ := har.jumps hpool3 (by omega) hsmall le_rfl (hshort.recs .ar)
  have hnames1 := hqd.names.trans (questions_names _)
  rw [Msg.allNames, ← hnames1, ← hnames2, ← hnames3, ← hnames4]
  simp only [Pool.jumpsAll_append, Pool.growAll_append]
  exact rel_append (rel_append (rel_append hall1 hall2) hall3) hall4

theorem Written.readable_iff {jumps : Nat} {name : Bytes} {wptr len : Nat}
    (h : Written pkt jumps name wptr len) (hshort : ShortStr name) :
    (∀ nlen, 256 ≤ nlen → (decodeName pkt wptr nlen).res ≠ .error .emaxjmp) ↔
      jumps ≤ DNS_MAX_JMP + 1 := by
  have hmax : DNS_NAME_MAXSTR = 253 := rfl
  obtain ⟨text, stop, hwire, hreads, -⟩ := h
  have hlen := hreads.short
  unfold ShortStr at hshort
  constructor
  · intro hread
    by_contra hjumps
    refine hread 256 le_rfl ?_
    rw [decodeName_wire hwire (by omega)]
    exact if_neg hjumps
  · intro hjumps _ _
    rw [decodeName_wire hwire (by omega)]
    rw [if_pos (show jumps ≤ 17 from hjumps)]
    nofun

end

/-- For every message whose strings are in its store, and every buffer that it can be encoded
into: the names of the packet can be read back without too many jumps exactly if, going through
the names of the message in order, none has more than 17 jumps behind it. -/
theorem names_readable_iff (ov : Overlay) (m : Msg) (hm : m.Stored ov) (pktMax : Nat) (buf : Mem)
    (n : Nat) (hn : (dnsMsgEncode pktMax ov m buf).1 = some n) :
    (∀ c ∈ (dnsMsgEncode pktMax ov m buf).2.calls, ∀ nlen, 256 ≤ nlen →
      (decodeName ⟨(dnsMsgEncode pktMax ov m buf).2.mem, n⟩ c.1 nlen).res ≠ .error .emaxjmp) ↔
    ∀ j ∈ Pool.jumpsAll [] (m.allNames ov), j ≤ DNS_MAX_JMP + 1 := by
  have hlaid := dnsMsgEncode_laid hm.short hn
  have hall := @MsgLaid.jumps ⟨(dnsMsgEncode _ ov m buf).2.mem, n⟩ _ ov m hlaid hm
  generalize (dnsMsgEncode pktMax ov m buf).2.calls = calls at hall ⊢
  generalize Pool.jumpsAll [] _ = jumps at hall ⊢
  induction hall with
  | nil => exact iff_of_true nofun nofun
  | cons hhead _ ih =>
    obtain ⟨hshort, len, hwritten⟩ := hhead
    rw [forall_mem_cons, forall_mem_cons]
    exact and_congr (hwritten.readable_iff hshort) ih

/-- A record of `DNS_TYPE_A` with a name. -/
def addrRecord (name : Bytes) : Rr := ⟨some name, DNS_TYPE_A, 1, 0, 0, .a ⟨[10, 0, 0, 1], rfl⟩⟩

/-- The message with the answers `recs`, as `dns_add_rr` builds it. -/
def answers (recs : List Rr) : Msg :=
  recs.foldl (fun m rr => (dnsAddRr Overlay.plain m .an rr).2) (dnsMsgReset Msg.zero)

/-- `a`, `a.a` and so on, up to `n` labels. -/
def nested (n : Nat) : List Bytes := (range n).map fun k => dotted (replicate (k + 1) [97])

theorem nested_stored : (answers ((nested 2).map addrRecord)).Stored Overlay.plain := by
  have hreset : Built Overlay.plain (dnsMsgReset Msg.zero) :=
    .reset fun sc _ _ => by cases sc <;> rfl
  have hone := @Built.addRr _ _ _ .an (addrRecord [97]) hreset rfl
  exact (@Built.addRr _ _ _ .an (addrRecord [97, 46, 97]) hone rfl).stored.1

/-- Answers for `a` and `a.a`: the second name ends in a jump. -/
theorem nested_names_readable :
    let r := dnsMsgEncode 512 Overlay.plain (answers ((nested 2).map addrRecord)) fun _ => 0
    r.1 = some 47 ∧ ∀ c ∈ r.2.calls, ∀ nlen, 256 ≤ nlen →
      (decodeName ⟨r.2.mem, 47⟩ c.1 nlen).res ≠ .error .emaxjmp := by
  refine ⟨by decide +kernel, ?_⟩
  exact (names_readable_iff _ _ nested_stored 512 (fun _ => 0) 47
    (by decide +kernel)).2 (by decide +kernel)

/-- Nineteen answers are encoded, and the name of the last one cannot be read. -/
theorem nested_names_unreadable :
    let m := answers ((nested 19).map addrRecord)
    let r := dnsMsgEncode 1024 Overlay.plain m fun _ => 0
    m.an.count = 19 ∧ r.1 = some 353 ∧ r.2.calls.getLast?.map Prod.fst = some 335 ∧
      (decodeName ⟨r.2.mem, 353⟩ 335 DNS_MSG_SIZE).res = .error .emaxjmp := by
  refine ⟨by decide +kernel, by decide +kernel, by decide +kernel, by decide +kernel⟩

end CDbK8s.Dns
