import CDbK8s.Dns.Layout
import CDbK8s.Dns.Record

/-!
# Messages whose strings are in the store

The strings of a message are in its own store of names: `dns_add_qd` and `dns_add_rr` put them
there. So they are short, and together not longer than the store, which bounds the packet: every
position in it fits a compression pointer.
-/

namespace CDbK8s.Dns

open Base Lib.ByteMem List

/-! ## The strings of a message -/

/-- The strings that the RDATA points to. -/
def rdataStrings (ov : Overlay) (rr : Rr) : List (Option Bytes) :=
  if rr.type = DNS_TYPE_A then []
  else if rr.type = DNS_TYPE_NS then [ov.ns rr.rdata]
  else if rr.type = DNS_TYPE_CNAME then [ov.cname rr.rdata]
  else if rr.type = DNS_TYPE_SOA then [(ov.soa rr.rdata).mname, (ov.soa rr.rdata).rname]
  else if rr.type = DNS_TYPE_PTR then [ov.ptr rr.rdata]
  else if rr.type = DNS_TYPE_HINFO then [(ov.hinfo rr.rdata).cpuStr, (ov.hinfo rr.rdata).osStr]
  else if rr.type = DNS_TYPE_MX then [(ov.mx rr.rdata).name]
  else if rr.type = DNS_TYPE_TXT then (ov.txt rr.rdata).strs
  else if rr.type = DNS_TYPE_AAAA then []
  else if rr.type = DNS_TYPE_SRV then [(ov.srv rr.rdata).name]
  else []

def Rr.strings (ov : Overlay) (rr : Rr) : List (Option Bytes) := rr.name :: rdataStrings ov rr

def storedSize : Option Bytes → Nat
  | none => 0
  | some str => (cstr str).length + 1

def recsSize (ov : Overlay) (recs : List Rr) : Nat :=
  (recs.map fun rr => ((rr.strings ov).map storedSize).sum).sum

/-- What all strings of a message take of the store. -/
def Msg.storedSize (ov : Overlay) (m : Msg) : Nat :=
  (m.questions.map fun q => Dns.storedSize q.qname).sum + recsSize ov m.an.recs +
    recsSize ov m.ns.recs + recsSize ov m.ar.recs

/-- The tables of a message are within their bounds, and its strings in its store. -/
structure Msg.Stored (ov : Overlay) (m : Msg) : Prop where
  qdLen : m.qdLen ≤ DNS_MAX_QD
  count : ∀ sc, (m.sect sc).count ≤ DNS_MAX_RR
  quests : ∀ q ∈ m.questions, ShortStr (cstring q.qname)
  recs : ∀ sc, ∀ rr ∈ (m.sect sc).recs,
    (rdataStrings ov rr).length ≤ DNS_MAX_TXT ∧ ∀ str ∈ rr.strings ov, ShortStr (cstring str)
  names : m.storedSize ov ≤ m.names.length
  store : m.names.length ≤ DNS_MAX_PDUSIZE

/-! ## The size of a packet -/

/-- The most bytes that a piece takes. -/
def Piece.size : Piece → Nat
  | .name str => str.length + 2
  | .bytes bs => bs.length
  | .gap n => n

def piecesSize (ps : List Piece) : Nat := (ps.map Piece.size).sum

variable {mem : Mem} {ov : Overlay} {t t' : List Suffix} {p p' : Nat} {ps : List Piece}
  {calls : List (Nat × Bytes)}

theorem Lays.size (h : Lays mem t p ps t' p' calls) : p' ≤ p + piecesSize ps := by
  unfold piecesSize
  induction h with
  | nil => exact le_rfl
  | @name t _ p _ str _ _ _ _ _ ih =>
    have hwlen : (encodeName t p (some str)).wire.length ≤ str.length + 2 := by
      have hwlen := length_encodeNameLoop p (str.length + 1) t p str
      show (encodeNameLoop p (str.length + 1) t p str).wire.length ≤ _
      split_ifs at hwlen <;> omega
    simp [Piece.size]
    omega
  | bytes _ _ ih =>
    simp [Piece.size]
    omega
  | gap _ ih =>
    simp [Piece.size]
    omega

theorem length_cstring_le (str : Option Bytes) : (cstring str).length ≤ storedSize str := by
  cases str with
  | none => exact Nat.le_refl 0
  | some str => exact Nat.le_succ _

theorem txtSize_le (strs : List (Option Bytes)) :
    piecesSize (strs.map fun str => .bytes (strBytes str)) ≤
      strs.length + (strs.map storedSize).sum := by
  induction strs with
  | nil => exact Nat.le_refl 0
  | cons str strs ih =>
    have hle := length_cstring_le str
    simp [piecesSize, Piece.size, strBytes] at ih ⊢
    omega

/-- The pieces `ps` hold the strings `strs`: they are not longer, but for a constant, and their
names are among the strings. -/
structure Holding (ps : List Piece) (strs : List (Option Bytes)) : Prop where
  size : strs.length ≤ DNS_MAX_TXT → piecesSize ps ≤ 36 + (strs.map storedSize).sum
  names : ∀ str, Piece.name str ∈ ps → ∃ o ∈ strs, str = cstring o

theorem holding_ite {c : Prop} [Decidable c] {ps qs : List Piece} {strs strs' : List (Option Bytes)}
    (h : Holding ps strs) (h' : Holding qs strs') :
    Holding (if c then ps else qs) (if c then strs else strs') := by
  split
  · exact h
  · exact h'

theorem holding_bytes {bs : Bytes} (h : bs.length ≤ 36) : Holding [.bytes bs] [] := by
  refine ⟨fun _ => ?_, fun _ hmem => ?_⟩
  · simpa [piecesSize, Piece.size] using h
  · simp at hmem

theorem holding_name (str : Option Bytes) : Holding [.name (cstring str)] [str] := by
  have hle := length_cstring_le str
  refine ⟨fun _ => ?_, fun n hmem => ⟨str, mem_singleton_self _, ?_⟩⟩
  · simp [piecesSize, Piece.size]
    omega
  · simpa using hmem

theorem holding_soa (v : Soa) :
    Holding [.name (cstring v.mname), .name (cstring v.rname), .bytes (soaBytes v)]
      [v.mname, v.rname] := by
  have hm := length_cstring_le v.mname
  have hr := length_cstring_le v.rname
  refine ⟨fun _ => ?_, fun n hmem => ?_⟩
  · simp [piecesSize, Piece.size, soaBytes]
    omega
  · simpa using hmem

theorem holding_hinfo (v : Hinfo) :
    Holding [.gap (2 + (cstring v.cpuStr).length + (cstring v.osStr).length)]
      [v.cpuStr, v.osStr] := by
  have hcpu := length_cstring_le v.cpuStr
  have hos := length_cstring_le v.osStr
  refine ⟨fun _ => ?_, fun n hmem => ?_⟩
  · simp [piecesSize, Piece.size]
    omega
  · simp at hmem

theorem Holding.cons {piece : Piece} {ps : List Piece} {str : Option Bytes}
    (hname : ∀ n, piece ≠ .name n) (h : ∀ n, Piece.name n ∈ ps → n = cstring str)
    (hsize : piecesSize (piece :: ps) ≤ 36 + storedSize str) : Holding (piece :: ps) [str] := by
  refine ⟨fun _ => by simpa using hsize, fun n hmem => ⟨str, mem_singleton_self _, ?_⟩⟩
  rcases mem_cons.1 hmem with heq | hmem
  · exact absurd heq.symm (hname n)
  · exact h n hmem

theorem holding_mx (v : Mx) :
    Holding [.bytes (encU16 v.pref), .gap 2, .name (cstring v.name)] [v.name] := by
  have hle := length_cstring_le v.name
  refine Holding.cons (fun n => nofun) (fun n hmem => by simpa using hmem) ?_
  simp [piecesSize, Piece.size]
  omega

theorem holding_srv (v : Srv) : Holding [.gap 2, .name (cstring v.name)] [v.name] := by
  have hle := length_cstring_le v.name
  refine Holding.cons (fun n => nofun) (fun n hmem => by simpa using hmem) ?_
  simp [piecesSize, Piece.size]
  omega

theorem holding_txt (strs : List (Option Bytes)) :
    Holding (strs.map fun str => .bytes (strBytes str)) strs := by
  have hmax : DNS_MAX_TXT = 32 := rfl
  refine ⟨fun _ => ?_, fun n hmem => ?_⟩
  · have hle := txtSize_le strs
    omega
  · simp at hmem

theorem holding_rdata (ov : Overlay) (rr : Rr) : Holding (rdataPieces ov rr) (rdataStrings ov rr) := by
  have hnil : Holding [] [] := ⟨fun _ => zero_le, nofun⟩
  have haddr : ∀ {n : Nat} (v : Octets n), n ≤ 36 → Holding [.bytes v.1] [] :=
    fun v hn => holding_bytes (v.2.le.trans hn)
  exact holding_ite (haddr _ (by decide)) <| holding_ite (holding_name _) <|
    holding_ite (holding_name _) <| holding_ite (holding_soa _) <| holding_ite (holding_name _) <|
    holding_ite (holding_hinfo _) <| holding_ite (holding_mx _) <| holding_ite (holding_txt _) <|
    holding_ite (haddr _ (by decide)) <| holding_ite (holding_srv _) hnil

theorem LaysRrs.size {recs : List Rr} (h : LaysRrs mem ov t p recs t' p' calls)
    (htxt : ∀ rr ∈ recs, (rdataStrings ov rr).length ≤ DNS_MAX_TXT) :
    p' ≤ p + 48 * recs.length + recsSize ov recs := by
  unfold recsSize
  induction h with
  | nil => exact le_rfl
  | @cons t _ _ p _ _ rr _ _ _ _ _ hrr _ ih =>
    have hsize := hrr.size
    have hrdata := (holding_rdata ov rr).size (htxt rr mem_cons_self)
    have hname := length_cstring_le rr.name
    have hhead := length_fieldHead ov rr
    have hrest := ih fun rr' hrr' => htxt rr' (.tail _ hrr')
    simp only [rrPieces, piecesSize, map_cons, sum_cons, Piece.size, length_append,
      length_encU16] at hsize hrdata
    have hstrings : ((rr.strings ov).map storedSize).sum =
        storedSize rr.name + ((rdataStrings ov rr).map storedSize).sum := by
      simp [Rr.strings]
    simp
    omega

theorem qdSize_le (quests : List Qd) : piecesSize (qdPieces quests) ≤
      6 * quests.length + (quests.map fun q => storedSize q.qname).sum := by
  induction quests with
  | nil => exact Nat.le_refl 0
  | cons q quests ih =>
    have hle := length_cstring_le q.qname
    simp [qdPieces, piecesSize, Piece.size] at ih ⊢
    omega

theorem Msg.Stored.short {m : Msg} (h : m.Stored ov) : m.Short ov := by
  refine ⟨h.quests, fun sc rr hrr => ⟨?_, fun str hmem => ?_⟩⟩
  · exact (h.recs sc rr hrr).2 _ mem_cons_self
  · obtain ⟨o, ho, rfl⟩ := (holding_rdata ov rr).names str hmem
    exact (h.recs sc rr hrr).2 o (.tail _ ho)

theorem length_recs (s : Sect) : s.recs.length = s.count := by
  simp [Sect.recs]

theorem MsgLaid.small {m : Msg} {stop : Nat} (h : MsgLaid mem ov m stop calls) (hm : m.Stored ov) :
    stop ≤ 2 ^ 14 := by
  obtain ⟨t1, p1, c1, t2, p2, c2, t3, p3, c3, t4, c4, hqd, han, hns, har, -⟩ := h.body
  have h1 := hqd.size.trans (Nat.add_le_add_left (qdSize_le _) _)
  have h2 := han.size fun rr hrr => (hm.recs .an rr hrr).1
  have h3 := hns.size fun rr hrr => (hm.recs .ns rr hrr).1
  have h4 := har.size fun rr hrr => (hm.recs .ar rr hrr).1
  have hquests : m.questions.length = m.qdLen := by
    simp [Msg.questions]
  have hqdLen := hm.qdLen
  have hcan := hm.count .an
  have hcns := hm.count .ns
  have hcar := hm.count .ar
  have hnames := hm.names.trans hm.store
  unfold Msg.storedSize at hnames
  simp only [length_recs] at h1 h2 h3 h4
  simp only [Msg.sect, DNS_MAX_QD, DNS_MAX_RR, DNS_MAX_PDUSIZE, DNS_HDR_LEN] at *
  omega

end CDbK8s.Dns
