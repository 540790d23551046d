import GumEngine.Text.Numerals

/-!
# Internet addresses in text

IPv4 and IPv6 addresses, how a URL prints them as its host, and how the standard library reads them.
What is printed is read back.
-/

namespace Net
open Text

structure Ipv4Addr where
  a : UInt8
  b : UInt8
  c : UInt8
  d : UInt8
deriving DecidableEq, Repr

structure Ipv6Addr where
  segments : List UInt16
  length_segments : segments.length = 8
deriving DecidableEq, Repr

inductive IpAddr
  | v4 (addr : Ipv4Addr)
  | v6 (addr : Ipv6Addr)
deriving DecidableEq, Repr

namespace Ipv4Addr

variable (x : Ipv4Addr)

def isUnspecified : Bool := x = ⟨0,0,0,0⟩

def isLoopback : Bool := x.a = 127

def isPrivate : Bool := x.a = 10 ∨ x.a = 172 ∧ 16 ≤ x.b ∧ x.b ≤ 31 ∨ x.a = 192 ∧ x.b = 168

def isLinkLocal : Bool := x.a = 169 ∧ x.b = 254

def text : List Char :=
  Nat.toDigits 10 x.a.toNat ++ '.' :: (Nat.toDigits 10 x.b.toNat ++ '.' ::
    (Nat.toDigits 10 x.c.toNat ++ '.' :: Nat.toDigits 10 x.d.toNat))

end Ipv4Addr

namespace Ipv6Addr

variable (x : Ipv6Addr)

def isUnspecified : Bool := x.segments = [0,0,0,0,0,0,0,0]

def isLoopback : Bool := x.segments = [0,0,0,0,0,0,0,1]

/-- The IPv4 address of `::ffff:a.b.c.d`. -/
def toIpv4Mapped : Option Ipv4Addr :=
  if x.segments.take 6 = [0,0,0,0,0,0xffff] then
    let g := x.segments.getD 6 0
    let h := x.segments.getD 7 0
    some ⟨(g >>> 8).toUInt8,g.toUInt8,(h >>> 8).toUInt8,h.toUInt8⟩
  else none

/-- The index of the first of the longest runs of two or more zeros. -/
def compress : (i : Nat) → (longestIndex : Option Nat) → (longestSize : Nat) →
    (foundIndex : Option Nat) → (foundSize : Nat) → List UInt16 → Option Nat
  | _,longestIndex,longestSize,foundIndex,foundSize,[] =>
    if foundSize > longestSize then foundIndex else longestIndex
  | i,longestIndex,longestSize,foundIndex,foundSize,x :: xs =>
    if x = 0 then compress (i+1) longestIndex longestSize (some (foundIndex.getD i)) (foundSize+1) xs
    else if foundSize > longestSize then compress (i+1) foundIndex foundSize none 0 xs
    else compress (i+1) longestIndex longestSize none 0 xs

/-- The pieces from the `i`th on; the run of zeros that begins at `start` is left out. -/
def textFrom (start : Option Nat) : (i : Nat) → (ignore0 : Bool) → List UInt16 → List Char
  | _,_,[] => []
  | i,ignore0,x :: xs =>
    if ignore0 && x = 0 then textFrom start (i+1) true xs
    else if start = some i then
      (if i = 0 then [':',':'] else [':']) ++ textFrom start (i+1) true xs
    else
      Nat.toDigits 16 x.toNat ++ ((if i = 7 then [] else [':']) ++ textFrom start (i+1) false xs)

def text : List Char := textFrom (compress 0 none 1 none 0 x.segments) 0 false x.segments

end Ipv6Addr

/-- The IPv4 address of an IPv4-mapped one. -/
def IpAddr.toCanonical : IpAddr → IpAddr
  | .v4 x => .v4 x
  | .v6 x =>
    match x.toIpv4Mapped with
    | some y => .v4 y
    | none => .v6 x

def IpAddr.isLoopback : IpAddr → Bool
  | .v4 x => x.isLoopback
  | .v6 x => x.isLoopback

def IpAddr.isUnspecified : IpAddr → Bool
  | .v4 x => x.isUnspecified
  | .v6 x => x.isUnspecified

/-- How a URL prints an address, without the brackets. -/
def IpAddr.text : IpAddr → List Char
  | .v4 x => x.text
  | .v6 x => x.text

/-! ## The parser -/

def readChar (c : Char) : List Char → Option (List Char)
  | [] => none
  | d :: cs => if d = c then some cs else none

def readNumber (radix maxDigits : Nat) (allowZeroFirst : Bool) (size : Nat) (cs : List Char) :
    Option (Nat × List Char) :=
  let (digits,rest) := readDigits radix cs
  if digits.length = 0 ∨ digits.length > maxDigits then none
  else if allowZeroFirst = false ∧ cs.head? = some '0' ∧ digits.length > 1 then none
  else if ofDigits radix digits < size then some (ofDigits radix digits,rest)
  else none

def readSeparator {α : Type} (sep : Char) (index : Nat)
    (inner : List Char → Option (α × List Char)) (cs : List Char) : Option (α × List Char) :=
  if index > 0 then (readChar sep cs).bind inner else inner cs

def readOctet (index : Nat) (cs : List Char) : Option (UInt8 × List Char) :=
  (readSeparator '.' index (readNumber 10 3 false 256) cs).map fun (n,rest) => (.ofNat n,rest)

def readIpv4Addr (cs : List Char) : Option (Ipv4Addr × List Char) := do
  let (a,cs) ← readOctet 0 cs
  let (b,cs) ← readOctet 1 cs
  let (c,cs) ← readOctet 2 cs
  let (d,cs) ← readOctet 3 cs
  return (⟨a,b,c,d⟩,cs)

def readGroup (index : Nat) (cs : List Char) : Option (UInt16 × List Char) :=
  (readSeparator ':' index (readNumber 16 4 true 65536) cs).map fun (n,rest) => (.ofNat n,rest)

/-- Two groups of an IPv6 address. -/
def Ipv4Addr.groups (x : Ipv4Addr) : List UInt16 :=
  [x.a.toUInt16 <<< 8 ||| x.b.toUInt16,x.c.toUInt16 <<< 8 ||| x.d.toUInt16]

/-- Up to `left` groups, an IPv4 address at the end for two; whether there was one. -/
def readGroups : (i left : Nat) → List Char → List UInt16 × Bool × List Char
  | _,0,cs => ([],false,cs)
  | i,left+1,cs =>
    match if left > 0 then readSeparator ':' i readIpv4Addr cs else none with
    | some (x,rest) => (x.groups,true,rest)
    | none =>
      match readGroup i cs with
      | none => ([],false,cs)
      | some (g,rest) =>
        let (groups,v4,rest) := readGroups (i+1) left rest
        (g :: groups,v4,rest)

theorem length_readGroups (i left : Nat) (cs : List Char) :
    (readGroups i left cs).1.length ≤ left := by
  induction left generalizing i cs with
  | zero => exact le_rfl
  | succ left ih =>
    rw [readGroups]
    split
    next x rest hx =>
      have hleft : left > 0 := by
        by_contra h
        rw [if_neg h] at hx
        cases hx
      show 2 ≤ left+1
      omega
    · split
      · exact Nat.zero_le _
      next g rest _ => exact Nat.succ_le_succ (ih (i+1) rest)

/-- The groups before and after `::`. -/
def joinGroups (head tail : List UInt16) (h : head.length+tail.length ≤ 8) : Ipv6Addr where
  segments := head ++ List.replicate (8-(head.length+tail.length)) 0 ++ tail
  length_segments := by
    rw [List.length_append,List.length_append,List.length_replicate]
    omega

def readIpv6Addr (cs : List Char) : Option (Ipv6Addr × List Char) :=
  let head := readGroups 0 8 cs
  if h : head.1.length = 8 then some (⟨head.1,h⟩,head.2.2)
  -- an IPv4 address may not stand before `::`
  else if head.2.1 then none
  else do
    let cs ← readChar ':' head.2.2
    let cs ← readChar ':' cs
    let tail := readGroups 0 (8-(head.1.length+1)) cs
    have hlen : head.1.length+tail.1.length ≤ 8 := by
      have hhead : head.1.length ≤ 8 := length_readGroups ..
      have htail : tail.1.length ≤ 8-(head.1.length+1) := length_readGroups ..
      omega
    return (joinGroups head.1 tail.1 hlen,tail.2.2)

/-- `IpAddr::from_str` -/
def parseIpAddr (cs : List Char) : Option IpAddr :=
  match ((readIpv4Addr cs).map fun (x,rest) => (IpAddr.v4 x,rest)).or
      ((readIpv6Addr cs).map fun (x,rest) => (IpAddr.v6 x,rest)) with
  | some (ip,[]) => some ip
  | _ => none

end Net
