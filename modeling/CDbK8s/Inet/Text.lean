import CDbK8s.Base.Bytes
import CDbK8s.Lib.Block

/-!
# Addresses as text

The decoders and encoders of `str_util.c` for IPv4 and IPv6 addresses. A decoder returns
what it reads and writes to its destination through a pointer; here the destination is the
bytes at `dst` and the pointer an offset. The text of an encoder is what it writes in front
of the final NUL.

`ip4_str_decode` returns `-1` for a number of more than three digits, which is the largest
`size_t`. `ip6_str_decode` adds that to a pointer, so it can come to stand in front of the
string, and then reads the byte there (`under`).
-/

namespace CDbK8s.Inet

open Base Lib.Block

/-! ## Digits -/

def hexToNibble (ch : UInt8) : Nat :=
  ((ch.toNat &&& 0xf) + (ch.toNat >>> 6) + ((ch.toNat >>> 6) <<< 3)) % 256

/-- The characters that `ip6_str_decode` takes for hex digits. -/
def isHex (ch : UInt8) : Bool :=
  (48 ≤ ch && ch ≤ 57) || (65 ≤ ch && ch ≤ 70) || (97 ≤ ch && ch ≤ 102)

/-- The table of `uint16_toax`. -/
def hexDigit (d : Nat) : UInt8 :=
  [48, 49, 50, 51, 52, 53, 54, 55, 56, 57, 97, 98, 99, 100, 101, 102].getD d 0

/-- `uint16_toax`: a group without leading zeros. -/
def uint16Toax (val : Nat) : Bytes :=
  (if val ≥ 0x1000 then [hexDigit ((val >>> 12) &&& 0xf)] else []) ++
    (if val ≥ 0x100 then [hexDigit ((val >>> 8) &&& 0xf)] else []) ++
    (if val ≥ 0x10 then [hexDigit ((val >>> 4) &&& 0xf)] else []) ++ [hexDigit (val &&& 0xf)]

def uint8Toa (val : UInt8) : Bytes :=
  if val.toNat < 10 then [val + 48]
  else if val.toNat < 100 then
    let d1 := (val.toNat * 205) >>> 11
    let d2 := val.toNat - d1 * 10
    [UInt8.ofNat (d1 + 48), UInt8.ofNat (d2 + 48)]
  else
    let d1 := (val.toNat * 164) >>> 14
    let rem := val.toNat - d1 * 100
    let d2 := (rem * 205) >>> 11
    let d3 := rem - d2 * 10
    [UInt8.ofNat (d1 + 48), UInt8.ofNat (d2 + 48), UInt8.ofNat (d3 + 48)]

/-- `enc_u16`: the bytes it writes. -/
def encU16 (value : Nat) : Bytes := [UInt8.ofNat (value >>> 8), UInt8.ofNat value]

/-! ## IPv4 -/

/-- The variables of `ip4_str_decode`. -/
structure Ip4State where
  numRead : Nat
  numDigit : Nat
  numDot : Nat
  acc : Nat
  wr : Bytes

/-- The loop of `ip4_str_decode`: an early return with what was written, or the variables
behind the loop. -/
def ip4Loop : Bytes → Ip4State → (Nat × Bytes) ⊕ Ip4State
  | [], s => .inr s
  | ch :: rest, s =>
    if 48 ≤ ch ∧ ch ≤ 57 then
      if s.numDigit + 1 > 3 then .inl (2 ^ 64 - 1, s.wr)
      else
        let acc := (s.acc <<< 3) + (s.acc <<< 1) + (ch.toNat - 48)
        if acc > 255 then .inl (0, s.wr)
        else ip4Loop rest { s with numRead := s.numRead + 1, numDigit := s.numDigit + 1, acc }
    else if ch = 46 then
      if s.numDigit = 0 ∨ s.numDot ≥ 3 then .inl (0, s.wr)
      else
        ip4Loop rest { numRead := s.numRead + 1, numDigit := 0, numDot := s.numDot + 1, acc := 0
                       wr := s.wr ++ [UInt8.ofNat s.acc] }
    else .inr { s with numRead := s.numRead + 1 }

/-- `ip4_str_decode`: the return value and the bytes written to the destination. -/
def ip4StrDecode (str : Bytes) : Nat × Bytes :=
  match ip4Loop str ⟨0, 0, 0, 0, []⟩ with
  | .inl r => r
  | .inr s =>
    if s.numDot ≠ 3 ∨ s.numDigit = 0 then (0, s.wr)
    else (s.numRead, s.wr ++ [UInt8.ofNat s.acc])

def IP4_ADDR_STRLEN : Nat := 16

/-- `ip4_str_encode`: the return value and the text. -/
def ip4StrEncode (addr : Bytes) (len : Nat) : Nat × Bytes :=
  if len < IP4_ADDR_STRLEN then (0, [])
  else
    let text := uint8Toa (addr.getD 0 0) ++ [46] ++ uint8Toa (addr.getD 1 0) ++ [46] ++
      uint8Toa (addr.getD 2 0) ++ [46] ++ uint8Toa (addr.getD 3 0)
    (text.length, text)

/-! ## Decoding IPv6 -/

/-- The variables of `ip6_str_decode`. Pointers into the string are offsets. -/
structure Ip6State where
  strPtr : Int
  segPtr : Nat
  dst : Bytes
  dstPtr : Nat
  zeroPtr : Option Nat
  numHex : Nat
  numSeg : Nat
  acc : Nat

/-- What one pass of the loop does: it returns, goes on with the next character or with the
one after it, or sets `str_end` to the start. -/
inductive CharStep where
  | ret (n : Nat) (dst : Bytes)
  | next (s : Ip6State)
  | skip (s : Ip6State)
  | stop (s : Ip6State)

/-- `enc_u16` at the destination pointer. -/
def Ip6State.putSeg (s : Ip6State) : Ip6State :=
  { s with dst := blit s.dst s.dstPtr (encU16 s.acc), dstPtr := s.dstPtr + 2 }

/-- The state behind a colon. -/
def Ip6State.nextSeg (s : Ip6State) : Ip6State :=
  { s with numHex := 0, acc := 0, segPtr := (s.strPtr + 1).toNat, numSeg := s.numSeg + 1 }

/-- `str_ptr += ret` for a `size_t`. -/
def ptrAdd (ptr ret : Nat) : Int := if ret ≥ 2 ^ 63 then (ptr : Int) + ret - 2 ^ 64 else ptr + ret

/-- One pass of the loop, for the character `ch`. `chars` are the characters in front of
`str_end`, and `peek` says whether the next of them is a colon. -/
def ip6Char (chars : Bytes) (ch : UInt8) (peek : Bool) (s : Ip6State) : CharStep :=
  let s := { s with strPtr := s.strPtr + 1 }
  if isHex ch then
    if s.numHex + 1 > 4 then .ret 0 s.dst
    else .next { s with numHex := s.numHex + 1, acc := (s.acc <<< 4 ||| hexToNibble ch) % 2 ^ 32 }
  else if ch = 58 then
    if s.numHex ≠ 0 ∧ s.numSeg ≥ 7 then .ret 0 s.dst
    else
      let s := if s.numHex ≠ 0 then s.putSeg else s
      if peek then
        if s.zeroPtr.isSome then .ret 0 s.dst
        else .skip ({ s with zeroPtr := some s.dstPtr, strPtr := s.strPtr + 1 } : Ip6State).nextSeg
      else .next s.nextSeg
  else if ch = 46 then
    if s.numSeg > 6 then .ret 0 s.dst
    else
      let r := ip4StrDecode (chars.drop s.segPtr)
      let s := { s with dst := blit s.dst s.dstPtr r.2 }
      if r.1 = 0 then .ret 0 s.dst
      else
        .stop { s with
          numHex := 0, strPtr := ptrAdd s.segPtr r.1, dstPtr := s.dstPtr + 4, numSeg := s.numSeg + 2 }
  else .stop s

/-- A pointer in front of the string is still below `str_end`, and the loop takes one more
character. -/
def underrun (under : UInt8) (s : Ip6State) : (Nat × Bytes) ⊕ Ip6State :=
  if s.strPtr < 0 then
    match ip6Char [] under false s with
    | .ret n dst => .inl (n, dst)
    | .next s => .inr s
    | .skip s => .inr s
    | .stop s => .inr s
  else .inr s

/-- The loop of `ip6_str_decode`, with the characters that are left. -/
def ip6Loop (str : Bytes) (under : UInt8) : Bytes → Ip6State → (Nat × Bytes) ⊕ Ip6State
  | [], s => .inr s
  | [ch], s =>
    match ip6Char str ch false s with
    | .ret n dst => .inl (n, dst)
    | .next s => .inr s
    | .skip s => .inr s
    | .stop s => underrun under s
  | ch :: ch' :: rest, s =>
    match ip6Char str ch (ch' == 58) s with
    | .ret n dst => .inl (n, dst)
    | .next s => ip6Loop str under (ch' :: rest) s
    | .skip s => ip6Loop str under rest s
    | .stop s => underrun under s

/-- The end of `ip6_str_decode`: the last segment, and the zeros of the gap. -/
def ip6Finish (s : Ip6State) : Nat × Bytes :=
  let s := if s.numHex ≠ 0 then { s.putSeg with numSeg := s.numSeg + 1 } else s
  match s.zeroPtr with
  | some zeroPtr =>
    let zeroMove := s.dstPtr - zeroPtr
    let zeroSize := 16 - s.dstPtr
    let dst := blit s.dst (16 - zeroMove) (window s.dst zeroPtr zeroMove)
    ((s.strPtr % 2 ^ 64).toNat, blit dst zeroPtr (List.replicate zeroSize 0))
  | none => if s.numSeg ≠ 8 then (0, s.dst) else ((s.strPtr % 2 ^ 64).toNat, s.dst)

/-- `ip6_str_decode` into the 16 bytes `dst`: the return value and the bytes. `under` is
the byte in front of the string. -/
def ip6StrDecode (str : Bytes) (under : UInt8) (dst : Bytes) : Nat × Bytes :=
  match ip6Loop str under str ⟨0, 0, dst, 0, none, 0, 0, 0⟩ with
  | .inl r => r
  | .inr s => ip6Finish s

/-! ## Encoding IPv6 -/

def IP6_ADDR_STRLEN : Nat := 46

def IP6_STR_ADDBRACK : UInt32 := 1

def IP6_STR_NOIPV4 : UInt32 := 2

def IP6_STR_STRIPV4 : UInt32 := 4

/-- The group at byte `i`. -/
def word (addr : Bytes) (i : Nat) : Nat := (addr.getD i 0).toNat <<< 8 ||| (addr.getD (i + 1) 0).toNat

/-- The longest run of zero groups and the current one. -/
structure ZeroRun where
  zeroPos : Int
  zeroLen : Nat
  curPos : Int
  curLen : Nat

/-- A longer run replaces the longest; an equal one does not. -/
def ZeroRun.record (z : ZeroRun) : ZeroRun :=
  if z.curLen > z.zeroLen then { z with zeroPos := z.curPos, zeroLen := z.curLen } else z

/-- One group of the scan for zero runs. -/
def scanStep (addr : Bytes) (z : ZeroRun) (i : Nat) : ZeroRun :=
  if word addr i = 0 then
    { z with curPos := if z.curPos = -1 then i else z.curPos, curLen := z.curLen + 2 }
  else { z.record with curPos := -1, curLen := 0 }

/-- The search over the values at `i = 0, 2, …, 14`. -/
def zeroScan (addr : Bytes) : ZeroRun :=
  ((List.range 8).foldl (fun z k => scanStep addr z (2 * k)) ⟨-1, 0, -1, 0⟩).record

/-- The loop that prints the values in front of `addrLen`, from `i` on. -/
def printWords (addr : Bytes) (zeroPos : Int) (zeroLen addrLen : Nat) : Nat → Nat → Bytes
  | 0, _ => []
  | fuel + 1, i =>
    if i < addrLen then
      if (i : Int) = zeroPos then
        let i := i + zeroLen
        [58, 58] ++ (if i ≥ 16 then []
            else uint16Toax (word addr i) ++ printWords addr zeroPos zeroLen addrLen fuel (i + 2))
      else
        (if i ≠ 0 then [58] else []) ++ uint16Toax (word addr i) ++
          printWords addr zeroPos zeroLen addrLen fuel (i + 2)
    else []

/-- The address is printed with its last four bytes as an IPv4 address. -/
def isDotted (addr : Bytes) (flags : UInt32) (zeroPos : Int) (zeroLen : Nat) : Bool :=
  flags &&& IP6_STR_NOIPV4 == 0 && zeroPos == 0 &&
    ((zeroLen == 10 && addr.getD 10 0 == 0xff && addr.getD 11 0 == 0xff) || zeroLen == 12)

/-- `ip6_str_encode` into `len` bytes: the return value and the text. -/
def ip6StrEncode (addr : Bytes) (flags : UInt32) (len : Nat) : Nat × Bytes :=
  let brack := flags &&& IP6_STR_ADDBRACK != 0
  if len < (if brack then IP6_ADDR_STRLEN + 2 else IP6_ADDR_STRLEN) then (0, [])
  else
    let z := zeroScan addr
    let zeroPos := if z.zeroLen ≤ 2 then -1 else z.zeroPos
    let dotted := isDotted addr flags zeroPos z.zeroLen
    if dotted && flags &&& IP6_STR_STRIPV4 != 0 then ip4StrEncode (addr.drop 12) len
    else
      let addrLen := if dotted then 12 else 16
      let text := (if brack then [91] else []) ++ printWords addr zeroPos z.zeroLen addrLen 8 0
      let text := if dotted then
          let text := if z.zeroLen = 10 then text ++ [58] else text
          text ++ (ip4StrEncode (addr.drop 12) (len - text.length)).2
        else text
      let text := if brack then text ++ [93] else text
      (text.length, text)

end CDbK8s.Inet
