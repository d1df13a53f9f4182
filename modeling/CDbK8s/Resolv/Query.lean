import CDbK8s.Resolv.Success

/-!
# Asking the nameservers for a name

`query_name` of `dns_resolv.c`: the cache is looked up first, then the nameservers are asked one
after the other, as often as the configuration says. A nameserver whose answer was truncated is
asked again over TCP, but `try_nameserver` never says that it was: the code of a query is 0 for
a truncated response, and `ns_getrc` makes `DNS_OK` of that.
-/

namespace CDbK8s.Resolv

open Base Dns Lib List

variable {C : Type}

/-! ## The functions -/

section
variable (api : CacheApi C) (ov : Overlay)

/-- Clears `need_ip4` or `need_ip6`. -/
def Res.served (res : Res) : Fam → Res
  | .ip4 => { res with needIp4 := false }
  | .ip6 => { res with needIp6 := false }

/-- The part of `try_cache` for one family. The cache is asked for the host of the request, not
for the name that is looked up. -/
def tryCacheFam (fam : Fam) (res : Res) (glob : Glob C) : Res × Glob C :=
  if res.needs fam then
    let r := api.get glob.cache fam res.host
    let glob := { glob with cache := r.2 }
    match r.1 with
    | none => (res, glob)
    | some sa =>
      let a := resAddAddr res sa
      (if a.1 ≠ -1 then a.2.served fam else a.2, glob)
  else (res, glob)

/-- `try_cache`: whether addresses are still needed. -/
def tryCache (res : Res) (glob : Glob C) : Bool × Res × Glob C :=
  let r := tryCacheFam api .ip4 res glob
  let r := tryCacheFam api .ip6 r.1 r.2
  (r.1.needIp4 || r.1.needIp6, r)

/-- The results at which `query_name` ends. -/
def stopQuery (rc : Int) : Bool := rc = DNS_OK ∨ rc = DNS_NODATA ∨ rc = DNS_NXDOMAIN

/-- What `query_name` does with one nameserver. `net` is what the network does while nameservers
are tried, by the number of those that were tried before. -/
def queryServer (net : Nat → Script) (name : Bytes) (useTcp : Bool) (res : Res) (glob : Glob C) :
    Int × Res × Glob C :=
  let r := tryNameserver api ov (net glob.tried) name useTcp res glob
  if r.1 = DNS_ETRUNC then tryNameserver api ov (net r.2.2.tried) name true r.2.1 r.2.2 else r

/-- The loops of `query_name`, for as many rounds as there are left. -/
def queryServers (net : Nat → Script) (name : Bytes) (useTcp : Bool) :
    Nat → Int → Res → Glob C → Int × Res × Glob C
  | 0, rc, res, glob => (rc, res, glob)
  | rounds + 1, _, res, glob =>
    let r := queryServer api ov net name useTcp res glob
    if stopQuery r.1 then r else queryServers net name useTcp rounds r.1 r.2.1 r.2.2

/-- The part of `struct dns_config` that `query_name` reads. -/
structure QueryCfg where
  attempts : Nat
  numNs : Nat
  useTcp : Bool

/-- `query_name`: the cache, then every server, `attempts` times. -/
def queryName (net : Nat → Script) (name : Bytes) (cfg : QueryCfg) (res : Res) (glob : Glob C) :
    Int × Res × Glob C :=
  let r := tryCache api res glob
  if !r.1 then (0, r.2)
  else queryServers api ov net name cfg.useTcp (cfg.attempts * cfg.numNs) DNS_ERR r.2.1 r.2.2

end

/-! ## Going on -/

section
variable (api : CacheApi C) (ov : Overlay)

end

section
variable (api : CacheApi C) (ov : Overlay)

def Untruncated (rc : Int) : Prop := rc ≠ DNS_ETRUNC

theorem Sent.untruncated {q q' : Query} (h : Sent q q') (hq : Untruncated q.lastRc) :
    Untruncated q'.lastRc := by
  rcases h with ⟨hrc, -⟩ | ⟨-, hcode⟩
  · rw [hrc]
    exact hq
  · rcases hcode with hrc | hrc | hrc <;> rw [hrc] <;> exact show ¬ (_ : Int) = _ by decide

theorem step_untruncated (fam : Fam) (l : Loop C) (e : Event)
    (h : Untruncated (l.ns.query fam).lastRc) :
    Untruncated ((l.step api ov e).ns.query fam).lastRc := by
  have hstep := step_query api ov l e fam
  cases hpkt : l.packet ov e with
  | none =>
    rw [hpkt] at hstep
    exact hstep.untruncated h
  | some ns =>
    rw [hpkt] at hstep
    rw [hstep.2]
    by_cases hto : answersTo ns = some fam
    · have hnonneg := ((chkDnspkt_query ov ns fam).2 hto).2.1
      unfold Untruncated DNS_ETRUNC
      omega
    · rw [(chkDnspkt_query ov ns fam).1 hto]
      exact hstep.1.untruncated h

theorem run_untruncated (fam : Fam) (es : List Event) :
    ∀ l : Loop C, Untruncated (l.ns.query fam).lastRc →
      Untruncated ((l.run api ov es).ns.query fam).lastRc := by
  induction es with
  | nil => exact fun l h => h
  | cons e es ih => exact fun l h => ih _ (step_untruncated api ov fam l e h)

theorem getRcode_untruncated {ns : Ns C} {fam : Fam} (h : Untruncated (ns.query fam).lastRc) :
    Untruncated (getRcode ns fam) := by
  unfold Untruncated at h ⊢
  unfold getRcode
  simp only [DNS_FORMERR] at h ⊢
  split_ifs <;> decide

theorem nsGetrc_untruncated {ns : Ns C} (rc : Int)
    (h : ∀ fam, Untruncated (ns.query fam).lastRc) : Untruncated (nsGetrc ns rc) := by
  have h4 := getRcode_untruncated (h .ip4)
  have h6 := getRcode_untruncated (h .ip6)
  unfold nsGetrc
  simp only
  split_ifs with htime
  · rw [htime]
    exact show DNS_ETIMEOUT ≠ DNS_ETRUNC by decide
  · exact show DNS_OK ≠ DNS_ETRUNC by decide
  · exact show DNS_NODATA ≠ DNS_ETRUNC by decide
  · exact h4
  · exact h6
  · exact h4
  · exact h4

theorem tryNameserver_ne_etrunc (script : Script) (name : Bytes) (useTcp : Bool) (res : Res)
    (glob : Glob C) : (tryNameserver api ov script name useTcp res glob).1 ≠ DNS_ETRUNC := by
  refine nsGetrc_untruncated _ fun fam => ?_
  refine run_untruncated api ov fam _ _ ?_
  refine (start_sent ov _ _ _ fam).2.1.untruncated ?_
  cases fam <;> exact show (0 : Int) ≠ DNS_ETRUNC by decide

/-- The event is a response to the query for `fam`, truncated and without an error. -/
def Loop.Truncates (fam : Fam) (l : Loop C) : Event → Prop
  | .idle _ _ _ => False
  | .ready io =>
    l.running = true ∧ (l.sending ov io).pfd.pollin = true ∧ (l.sending ov io).pfd.pollout = false ∧
      (rcvDnspkt (l.sending ov io).ns.sock io.read).1 = 0 ∧
      answersTo ((l.sending ov io).ns.read io.read) = some fam ∧
      isTc ((l.sending ov io).ns.read io.read).header.flags = true ∧
      rcodeOf ((l.sending ov io).ns.read io.read).header.flags = 0

instance (fam : Fam) (l : Loop C) : (e : Event) → Decidable (l.Truncates ov fam e)
  | .idle _ _ _ => inferInstanceAs (Decidable False)
  | .ready _ => inferInstanceAs (Decidable (_ ∧ _ ∧ _ ∧ _ ∧ _ ∧ _ ∧ _))

/-- Over UDP, every query that is needed gets a truncated response. -/
def Truncated (script : Script) (name : Bytes) (res : Res) (glob : Glob C) : Prop :=
  (res.needIp4 = true ∨ res.needIp6 = true) ∧ ∀ fam, res.needs fam = true →
      ¬ Runs.EveryStep (Loop.step api ov) (fun l e => ¬ l.Truncates ov fam e)
        (freshLoop ov script name false res glob) script.events

/-- For every run: that a nameserver whose responses are all truncated says so, and is asked again
over TCP, is true of the runs only in which it does not happen. -/
theorem truncation_falls_back_iff (net : Nat → Script) (name : Bytes) (res : Res) (glob : Glob C) :
    (Truncated api ov (net glob.tried) name res glob →
      (tryNameserver api ov (net glob.tried) name false res glob).1 = DNS_ETRUNC ∧
        queryServer api ov net name false res glob =
          (let r := tryNameserver api ov (net glob.tried) name false res glob
          tryNameserver api ov (net r.2.2.tried) name true r.2.1 r.2.2)) ↔
      ¬ Truncated api ov (net glob.tried) name res glob := by
  refine ⟨fun h htrunc => ?_, fun h htrunc => absurd htrunc h⟩
  exact tryNameserver_ne_etrunc api ov _ _ false res _ (h htrunc).1

end

def truncatedResponse (id : UInt8) : Bytes := [0, id, 0x82, 0, 0, 0, 0, 0, 0, 0, 0, 0]

/-- Both queries are sent at once, and both get a truncated response. -/
def bothTruncated : Script :=
  ⟨.connected, ⟨false, .wrote 100, .wrote 100, .eagain⟩,
    [.ready ⟨false, .eagain, .eagain, .data (truncatedResponse 7)⟩,
      .ready ⟨false, .eagain, .eagain, .data (truncatedResponse 8)⟩]⟩

/-- The result is a success without an address, and the nameserver is not asked over TCP. -/
theorem truncated_is_success :
    Truncated noCache Overlay.plain bothTruncated [97] (bothFamilies 16) ⟨(), 7, 0⟩ ∧
      (tryNameserver noCache Overlay.plain bothTruncated [97] false (bothFamilies 16)
        ⟨(), 7, 0⟩).1 = DNS_OK ∧
      (queryName noCache Overlay.plain (fun _ => bothTruncated) [97] ⟨2, 1, false⟩ (bothFamilies 16)
        ⟨(), 7, 0⟩).1 = DNS_OK ∧
      (queryName noCache Overlay.plain (fun _ => bothTruncated) [97] ⟨2, 1, false⟩ (bothFamilies 16)
        ⟨(), 7, 0⟩).2.2.tried = 1 ∧
      (queryName noCache Overlay.plain (fun _ => bothTruncated) [97] ⟨2, 1, false⟩ (bothFamilies 16)
        ⟨(), 7, 0⟩).2.1.numAddr = 0 := by
  refine ⟨⟨.inl rfl, fun fam _ hno => ?_⟩, by decide +kernel⟩
  -- the first response is for the query for IPv4 addresses, the second for the other
  cases fam with
  | ip4 => exact hno.1 (by decide +kernel)
  | ip6 => exact hno.2.1 (by decide +kernel)

end CDbK8s.Resolv
