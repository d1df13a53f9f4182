import CDbK8s.Resolv.Loop

/-!
# What a packet does to a nameserver

The functions behind `recv_resp`, each by what it returns and what it changes. `answersTo` is the
query that `chk_dnspkt` takes a packet for, if there is one: the rest of the nameserver is left
alone by a packet that answers no query.
-/

namespace CDbK8s.Resolv

open Dns

variable {r : ReadRes}
variable {C : Type}

/-! ## Fields -/

section
variable (ns : Ns C) (fam : Fam) (q : Query)

@[simp] theorem setQuery_name : (ns.setQuery fam q).name = ns.name := by cases fam <;> rfl

@[simp] theorem setQuery_sock : (ns.setQuery fam q).sock = ns.sock := by cases fam <;> rfl

@[simp] theorem setQuery_active : (ns.setQuery fam q).active = ns.active := by cases fam <;> rfl

@[simp] theorem setQuery_useTcp : (ns.setQuery fam q).useTcp = ns.useTcp := by cases fam <;> rfl

@[simp] theorem setQuery_useEsdn : (ns.setQuery fam q).useEsdn = ns.useEsdn := by
  cases fam <;> rfl

@[simp] theorem setQuery_res : (ns.setQuery fam q).res = ns.res := by cases fam <;> rfl

@[simp] theorem setQuery_glob : (ns.setQuery fam q).glob = ns.glob := by cases fam <;> rfl

@[simp] theorem query_setQuery : (ns.setQuery fam q).query fam = q := by cases fam <;> rfl

theorem query_setQuery_of_ne {fam' : Fam} (h : fam' ≠ fam) :
    (ns.setQuery fam q).query fam' = ns.query fam' := by
  cases fam <;> cases fam' <;> first | rfl | exact absurd rfl h

end

/-! ## The check of a packet -/

section
variable (ov : Overlay) (ns : Ns C)

/-- The query that the packet answers. -/
def answersTo : Option Fam :=
  match decDnshdr ns.sock with
  | none => none
  | some hdr => if !isQr hdr.flags then none else findQuery ns hdr.id

theorem decDnshdr_none_iff (s : DnsSock) : decDnshdr s = none ↔ s.payload.len < DNS_HDR_LEN := by
  rw [decDnshdr]
  split <;> simp [*]

theorem decDnshdr_some {s : DnsSock} {hdr : Hdr} (h : decDnshdr s = some hdr) :
    DNS_HDR_LEN ≤ s.payload.len ∧ hdr = hdrAt s.payload := by
  rw [decDnshdr] at h
  split at h
  · cases h
  · cases h
    exact ⟨by omega, rfl⟩

theorem chkDnspkt_none (h : answersTo ns = none) : (chkDnspkt ov ns).2 = ns ∧
      ((chkDnspkt ov ns).1 = DNS_EBADHDR ∨ (chkDnspkt ov ns).1 = DNS_ENOTRSP ∨
        (chkDnspkt ov ns).1 = DNS_ETID) := by
  unfold answersTo at h
  unfold chkDnspkt
  cases hdr : decDnshdr ns.sock with
  | none => exact ⟨rfl, .inl rfl⟩
  | some hdr =>
    simp only [*] at h ⊢
    split
    · exact ⟨rfl, .inr (.inl rfl)⟩
    · rename_i hqr
      rw [if_neg hqr] at h
      rw [h]
      exact ⟨rfl, .inr (.inr rfl)⟩

theorem chkDnspkt_some {fam : Fam} (h : answersTo ns = some fam) :
    DNS_HDR_LEN ≤ ns.sock.payload.len ∧ isQr (hdrAt ns.sock.payload).flags = true ∧
      findQuery ns (hdrAt ns.sock.payload).id = some fam ∧
      chkDnspkt ov ns = chkDnsrsp ov ns (hdrAt ns.sock.payload) fam := by
  unfold answersTo at h
  cases hhdr : decDnshdr ns.sock with
  | none =>
    rw [hhdr] at h
    cases h
  | some _ =>
    obtain ⟨hlen, rfl⟩ := decDnshdr_some hhdr
    rw [hhdr] at h
    simp only at h
    split at h
    · cases h
    · rename_i hqr
      rw [Bool.not_eq_true', Bool.not_eq_false] at hqr
      refine ⟨hlen, hqr, h, ?_⟩
      rw [chkDnspkt, hhdr]
      simp [hqr, h]

/-- A code that neither fails the socket nor keeps the buffer. -/
def Verdict (rc : Int) : Prop := rc ≠ DNS_ERR ∧ rc ≠ DNS_EBADHDR ∧ rc ≠ DNS_EAGAIN

instance (rc : Int) : Decidable (Verdict rc) := inferInstanceAs (Decidable (_ ∧ _ ∧ _))

theorem verdict_of_nonneg {rc : Int} (h : 0 ≤ rc) : Verdict rc := by
  unfold Verdict DNS_ERR DNS_EBADHDR DNS_EAGAIN
  omega

theorem setRc_self (fam : Fam) : ns.setRc fam (ns.query fam).lastRc = ns := by
  cases fam <;> rfl

theorem chkDnsopt_nonneg {lastRc rc : Int} {rsp : Msg} (h : chkDnsopt ov lastRc rsp = some rc) :
    0 ≤ rc := by
  unfold chkDnsopt at h
  split at h
  · cases h
    omega
  · cases h

theorem chkMsg_spec (fam : Fam) : Verdict (chkMsg ov ns fam).1 ∧
      ∃ msg rc, (chkMsg ov ns fam).2 = { ns with msg := msg }.setRc fam rc := by
  have hkeep : ∀ msg, ∃ msg' rc, { ns with msg := msg } = { ns with msg := msg' }.setRc fam rc :=
    fun msg => ⟨msg, _, (setRc_self _ fam).symm⟩
  unfold chkMsg
  simp only
  split
  · exact ⟨show Verdict DNS_EBADMSG by decide, hkeep _⟩
  · split
    · exact ⟨show Verdict DNS_EQUEST by decide, hkeep _⟩
    · split
      · rename_i rc hopt
        exact ⟨verdict_of_nonneg (chkDnsopt_nonneg ov hopt), _, rc, rfl⟩
      · exact ⟨show Verdict 0 by decide, hkeep _⟩

theorem chkDnsrsp_spec (hdr : Hdr) (fam : Fam) : Verdict (chkDnsrsp ov ns hdr fam).1 ∧
      ∃ msg rc, (chkDnsrsp ov ns hdr fam).2 =
        { answered ns hdr fam with msg := msg }.setRc fam rc := by
  have hkeep : ∃ msg rc, answered ns hdr fam =
      { answered ns hdr fam with msg := msg }.setRc fam rc :=
    ⟨(answered ns hdr fam).msg, _, (setRc_self _ fam).symm⟩
  unfold chkDnsrsp
  simp only
  split
  · refine ⟨?_, hkeep⟩
    split
    · exact show Verdict DNS_EPROTO by decide
    · exact show Verdict DNS_ETRUNC by decide
  · split
    · exact ⟨verdict_of_nonneg (Int.natCast_nonneg _), hkeep⟩
    · exact chkMsg_spec ov _ fam

theorem chkDnspkt_ebadhdr_iff :
    (chkDnspkt ov ns).1 = DNS_EBADHDR ↔ ns.sock.payload.len < DNS_HDR_LEN := by
  cases hto : answersTo ns with
  | some fam =>
    obtain ⟨hlen, -, -, hchk⟩ := chkDnspkt_some ov ns hto
    rw [hchk]
    have hne := (chkDnsrsp_spec ov ns (hdrAt ns.sock.payload) fam).1.2.1
    exact ⟨fun h => absurd h hne, fun h => by omega⟩
  | none =>
    rw [← decDnshdr_none_iff]
    unfold chkDnspkt answersTo at *
    cases hhdr : decDnshdr ns.sock with
    | none => simp
    | some _ =>
      simp only [hhdr] at hto ⊢
      split at hto
      · rename_i hqr
        rw [if_pos hqr]
        simp [DNS_ENOTRSP, DNS_EBADHDR]
      · rename_i hqr
        rw [if_neg hqr, hto]
        simp [DNS_ETID, DNS_EBADHDR]

theorem chkDnspkt_spec : ((chkDnspkt ov ns).1 = DNS_EBADHDR ∨ Verdict (chkDnspkt ov ns).1) ∧
      match answersTo ns with
      | none => (chkDnspkt ov ns).2 = ns
      | some fam => ∃ msg rc, (chkDnspkt ov ns).2 =
          { answered ns (hdrAt ns.sock.payload) fam with msg := msg }.setRc fam rc := by
  cases hto : answersTo ns with
  | none =>
    obtain ⟨hsame, hrc⟩ := chkDnspkt_none ov ns hto
    refine ⟨?_, hsame⟩
    rcases hrc with h | h | h
    · exact .inl h
    · exact .inr (by rw [h]; decide)
    · exact .inr (by rw [h]; decide)
  | some fam =>
    obtain ⟨-, -, -, hchk⟩ := chkDnspkt_some ov ns hto
    rw [hchk]
    obtain ⟨hrc, heff⟩ := chkDnsrsp_spec ov ns _ fam
    exact ⟨.inr hrc, heff⟩

end

/-! ## The answers of a packet -/

/-- What the addresses of a message change: the result and the cache, and the flags that say
what was found. The result grows by addresses only. -/
structure Ns.Gains (ns ns' : Ns C) : Prop where
  name : ns'.name = ns.name
  sock : ns'.sock = ns.sock
  active : ns'.active = ns.active
  v4Query : ns'.v4Query = ns.v4Query
  v6Query : ns'.v6Query = ns.v6Query
  res : ∀ I : Res → Prop, (∀ r ip, I r → I (resAddIp r ip).2) → I ns.res → I ns'.res

theorem Ns.Gains.refl (ns : Ns C) : ns.Gains ns := ⟨rfl, rfl, rfl, rfl, rfl, fun _ _ h => h⟩

theorem Ns.Gains.trans {ns1 ns2 ns3 : Ns C} (h : ns1.Gains ns2) (h' : ns2.Gains ns3) :
    ns1.Gains ns3 :=
  ⟨h'.name.trans h.name, h'.sock.trans h.sock, h'.active.trans h.active,
    h'.v4Query.trans h.v4Query, h'.v6Query.trans h.v6Query,
    fun I hI h1 => h'.res I hI (h.res I hI h1)⟩

theorem Ns.Gains.query {ns ns' : Ns C} (h : ns.Gains ns') (fam : Fam) :
    ns'.query fam = ns.query fam := by
  cases fam with
  | ip4 => exact h.v4Query
  | ip6 => exact h.v6Query

variable (api : CacheApi C) (ov : Overlay)

theorem addAnswer_gains (ns : Ns C) (rr : Rr) : ns.Gains (addAnswer api ov ns rr) := by
  unfold addAnswer
  cases rrIp ov rr with
  | none => exact .refl ns
  | some ip =>
    simp only
    have hres : ∀ I : Res → Prop, (∀ r ip, I r → I (resAddIp r ip).2) → I ns.res →
        I (resAddIp ns.res ip).2 := fun I hI h => hI ns.res ip h
    split
    · cases ip with
      | v4 octets => exact ⟨rfl, rfl, rfl, rfl, rfl, hres⟩
      | v6 octets => exact ⟨rfl, rfl, rfl, rfl, rfl, hres⟩
    · exact ⟨rfl, rfl, rfl, rfl, rfl, hres⟩

theorem addAnswers_gains (rrs : List Rr) (ns : Ns C) : ns.Gains (addAnswers api ov ns rrs) := by
  induction rrs generalizing ns with
  | nil => exact .refl ns
  | cons rr rrs ih =>
    rw [addAnswers]
    split
    · exact .refl ns
    · exact (addAnswer_gains api ov ns rr).trans (ih _)

theorem addDnsans_gains (ns : Ns C) : ns.Gains (addDnsans api ov ns) := by
  have hflag : ns.Gains { ns with haveAns := true } :=
    ⟨rfl, rfl, rfl, rfl, rfl, fun _ _ h => h⟩
  exact hflag.trans (addAnswers_gains api ov _ _)

/-! ## A round of receiving -/

theorem rcvDnspkt_rc (s : DnsSock) (r : ReadRes) :
    (rcvDnspkt s r).1 = 0 ∨ (rcvDnspkt s r).1 = DNS_EAGAIN ∨ (rcvDnspkt s r).1 = DNS_ERR := by
  have hend : ∀ s, (rcvEnd s).1 = 0 ∨ (rcvEnd s).1 = DNS_EAGAIN ∨ (rcvEnd s).1 = DNS_ERR := by
    intro s
    unfold rcvEnd
    split
    · exact .inl rfl
    · exact .inr (.inl rfl)
  cases r with
  | eagain => exact .inr (.inl rfl)
  | fail => exact .inr (.inr rfl)
  | data _ =>
    unfold rcvDnspkt
    simp only
    split
    · exact .inr (.inr rfl)
    · split
      · exact .inl rfl
      · split
        · split
          · exact .inr (.inr rfl)
          · exact hend _
        · exact hend _

/-- The nameserver after `rcv_dnspkt`. -/
def Ns.read (ns : Ns C) (r : ReadRes) : Ns C := { ns with sock := (rcvDnspkt ns.sock r).2 }

theorem doResp_unread {ns : Ns C} (h : (rcvDnspkt ns.sock r).1 ≠ 0) :
    doResp api ov ns r = ((rcvDnspkt ns.sock r).1, ns.read r) :=
  if_pos h

theorem doResp_objected {ns : Ns C} (h : (rcvDnspkt ns.sock r).1 = 0)
    (hchk : (chkDnspkt ov (ns.read r)).1 ≠ 0) : doResp api ov ns r = chkDnspkt ov (ns.read r) :=
  (if_neg (not_not_intro h)).trans (if_pos hchk)

theorem doResp_taken {ns : Ns C} (h : (rcvDnspkt ns.sock r).1 = 0)
    (hchk : (chkDnspkt ov (ns.read r)).1 = 0) :
    doResp api ov ns r = (0, addDnsans api ov (chkDnspkt ov (ns.read r)).2) :=
  (if_neg (not_not_intro h)).trans (if_neg (not_not_intro hchk))

variable {ns ns' : Ns C} {r : ReadRes} {rc : Int} (pfd : Pollfd)

/-- The results that end the attempt. -/
def Fatal (rc : Int) (s : DnsSock) : Prop := rc = DNS_ERR ∨ (rc = DNS_EBADHDR ∧ s.isTcp = true)

theorem recvResp_fatal (hresp : doResp api ov ns r = (rc, ns')) (hrc : Fatal rc ns'.sock) :
    recvResp api ov ns pfd r =
      ({ ns' with active := 0, sock := dnsSockFlush ns'.sock }, { pfd with fd := false }) := by
  have hagain : rc ≠ DNS_EAGAIN := by
    rcases hrc with h | h
    · rw [h]
      decide
    · rw [h.1]
      decide
  unfold Fatal at hrc
  unfold recvResp
  simp only [hresp]
  simp [if_neg hagain, if_pos hrc]

theorem recvResp_flushed (hresp : doResp api ov ns r = (rc, ns')) (hagain : rc ≠ DNS_EAGAIN)
    (hrc : ¬ Fatal rc ns'.sock) :
    recvResp api ov ns pfd r = ({ ns' with sock := dnsSockFlush ns'.sock }, pfd) := by
  unfold Fatal at hrc
  unfold recvResp
  simp only [hresp]
  simp [if_neg hagain, if_neg hrc]

theorem recvResp_again (h : (rcvDnspkt ns.sock r).1 = DNS_EAGAIN) :
    recvResp api ov ns pfd r = (ns.read r, pfd) := by
  have hresp : doResp api ov ns r = _ := doResp_unread api ov (by rw [h]; decide)
  unfold recvResp
  simp only [hresp]
  rw [if_pos h]

theorem recvResp_err (h : (rcvDnspkt ns.sock r).1 = DNS_ERR) : recvResp api ov ns pfd r =
      ({ ns.read r with active := 0, sock := dnsSockFlush (ns.read r).sock },
        { pfd with fd := false }) :=
  recvResp_fatal api ov pfd (doResp_unread api ov (by rw [h]; decide)) (.inl h)

variable (h : (rcvDnspkt ns.sock r).1 = 0)
include h

section
variable (hshort : (ns.read r).sock.payload.len < DNS_HDR_LEN)
include hshort

theorem doResp_short : doResp api ov ns r = (DNS_EBADHDR, ns.read r) := by
  have hto : answersTo (ns.read r) = none := by
    unfold answersTo
    rw [(decDnshdr_none_iff _).2 hshort]
  have hrc := (chkDnspkt_ebadhdr_iff ov _).2 hshort
  rw [doResp_objected api ov h (by rw [hrc]; decide)]
  exact Prod.ext hrc (chkDnspkt_none ov _ hto).1

theorem recvResp_short (htcp : (ns.read r).sock.isTcp = true) : recvResp api ov ns pfd r =
      ({ ns.read r with active := 0, sock := dnsSockFlush (ns.read r).sock },
        { pfd with fd := false }) :=
  recvResp_fatal api ov pfd (doResp_short api ov h hshort) (.inr ⟨rfl, htcp⟩)

end

theorem recvResp_packet
    (hlen : (ns.read r).sock.payload.len < DNS_HDR_LEN → (ns.read r).sock.isTcp = false) :
    ∃ ns', (chkDnspkt ov (ns.read r)).2.Gains ns' ∧
      recvResp api ov ns pfd r = ({ ns' with sock := dnsSockFlush ns'.sock }, pfd) := by
  by_cases hok : (chkDnspkt ov (ns.read r)).1 = 0
  · refine ⟨_, addDnsans_gains api ov _, ?_⟩
    exact recvResp_flushed api ov pfd (doResp_taken api ov h hok) (by decide)
      (by simp [Fatal, DNS_ERR, DNS_EBADHDR])
  · refine ⟨_, .refl _, ?_⟩
    have hresp := doResp_objected api ov h hok
    rcases (chkDnspkt_spec ov _).1 with hbad | ⟨herr, hbad, hagain⟩
    · have hshort := (chkDnspkt_ebadhdr_iff ov _).1 hbad
      have hudp := hlen hshort
      rw [doResp_short api ov h hshort] at hresp
      rw [← hresp]
      refine recvResp_flushed api ov pfd (doResp_short api ov h hshort) (by decide) ?_
      rintro (herr | htcp)
      · exact absurd herr (by decide)
      · rw [hudp] at htcp
        cases htcp.2
    · refine recvResp_flushed api ov pfd hresp hagain ?_
      rintro (h' | h')
      · exact herr h'
      · exact hbad h'.1

end CDbK8s.Resolv
