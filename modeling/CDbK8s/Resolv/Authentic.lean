import CDbK8s.Dns.Complete
import CDbK8s.Resolv.Receive

/-!
# Whose answers are taken

A packet is authentic if it is a response to a query that was sent and not answered yet, and
repeats the question of that query. `Accepted` is what the code checks instead: that the query
is still waiting is not looked at, and the comparison of the names has no effect.
-/

namespace CDbK8s.Resolv

open Base Dns

variable {C : Type}

/-! ## Authentic packets -/

/-- The header of the packet that was received. -/
def Ns.header (ns : Ns C) : Hdr := hdrAt ns.sock.payload

/-- The message that `dec_dnsmsg` makes of the packet. -/
def Ns.rsp (ov : Overlay) (ns : Ns C) : Msg := (decDnsmsg ov ns.sock ns.msg).2

section
variable {pkt : Pkt} {ov : Overlay}

end

/-! ## Accepted packets -/

section
variable (ov : Overlay) (ns : Ns C) (fam : Fam)

end

/-! ## Adding the answers -/

/-- Addresses are added to the result or the cache. -/
def Adds (ns ns' : Ns C) : Prop :=
  ns.res.numAddr < ns'.res.numAddr ∨ ns'.glob.cache ≠ ns.glob.cache

section
variable (api : CacheApi C) (ov : Overlay)

/-! ## The packets that are taken -/

end

section
variable {ov : Overlay} {ns : Ns C} {fam : Fam}

end

end CDbK8s.Resolv
