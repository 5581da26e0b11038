import Chewie.Libc.Strtoul

/-!
# Addresses as text

`inet_ipv4_pton` and `inet_ipv6_pton` scan a text up to its NUL, and `inet_ipv6_ntop` prints an
address. A text is the list of the characters before the NUL. The arrays of the parsers have no
bound in the model: every index that a parser uses is logged.
-/

namespace Chewie.Libc.Net

/-- The arrays that the parsers index. -/
inductive Buffer where
  | ip
  | rip
  | dest
deriving DecidableEq

/-- The contents of the arrays, and the places that were read or written. -/
structure Memory where
  bytes : Buffer → Nat → Nat
  touched : List (Buffer × Nat)

/-- Store a byte. -/
def Memory.store (mem : Memory) (buffer : Buffer) (index value : Nat) : Memory :=
  ⟨Function.update mem.bytes buffer (Function.update (mem.bytes buffer) index value),
    (buffer, index) :: mem.touched⟩

/-- Load a byte. -/
def Memory.load (mem : Memory) (buffer : Buffer) (index : Nat) : Nat × Memory :=
  (mem.bytes buffer index, ⟨mem.bytes, (buffer, index) :: mem.touched⟩)

/-- `memset` of the first bytes of an array to zero. -/
def Memory.clear (mem : Memory) (buffer : Buffer) : Nat → Memory
  | 0 => mem
  | count + 1 => (mem.clear buffer count).store buffer count 0

/-- `memcpy` of the first bytes of an array into `dest`. -/
def Memory.memcpy (mem : Memory) (offset : Nat) (source : Buffer) : Nat → Memory
  | 0 => mem
  | count + 1 =>
    let loaded := (mem.memcpy offset source count).load source count
    loaded.2.store .dest (offset + count) loaded.1

/-- The result of a parser and the memory that it leaves. -/
structure Pton where
  ret : Nat
  mem : Memory

/-- A decimal digit. -/
def isDecimal (ch : Char) : Bool := 0x30 ≤ ch.toNat && ch.toNat ≤ 0x39

/-- A hexadecimal digit. -/
def isHexadecimal (ch : Char) : Bool :=
  (0x30 ≤ ch.toNat && ch.toNat ≤ 0x39) || (0x61 ≤ ch.toNat && ch.toNat ≤ 0x66) ||
    (0x41 ≤ ch.toNat && ch.toNat ≤ 0x46)

/-- The variables of `inet_ipv4_pton` at the start of a field. -/
structure Scan4 where
  ndots : Nat
  mem : Memory

/-- The end of a field: the number is checked and stored. -/
def Scan4.storeField (scan : Scan4) (numstr : List Char) : Option Memory :=
  if numstr.length < 1 then none
  else if atoi numstr < 0 ∨ 255 < atoi numstr then none
  else some (scan.mem.store .dest scan.ndots ((atoi numstr).toNat % 256))

/-- The loop of `inet_ipv4_pton`, with the digits of the field so far. -/
def scan4 : List Char → List Char → Scan4 → Pton
  | [], numstr, scan =>
    match scan.storeField numstr with
    | none => ⟨0, scan.mem⟩
    | some mem => ⟨if scan.ndots ≠ 3 then 0 else 1, mem⟩
  | ch :: src, numstr, scan =>
    if ch = '.' then
      if 4 ≤ scan.ndots then ⟨0, scan.mem⟩
      else
        match scan.storeField numstr with
        | none => ⟨0, scan.mem⟩
        | some mem => scan4 src [] ⟨scan.ndots + 1, mem⟩
    else if isDecimal ch then
      if 4 ≤ (numstr ++ [ch]).length then ⟨0, scan.mem⟩ else scan4 src (numstr ++ [ch]) scan
    else ⟨0, scan.mem⟩

def inetIpv4Pton (src : List Char) (mem : Memory) : Pton :=
  scan4 src [] ⟨0, mem.clear .dest 4⟩

/-- The variables of `inet_ipv6_pton` at the start of a field. -/
structure Scan6 where
  nsep : Nat
  nrsep : Nat
  rtime : Bool
  mem : Memory

/-- Store a group in two bytes. -/
def Memory.storeGroup (mem : Memory) (buffer : Buffer) (group value : Nat) : Memory :=
  (mem.store buffer (2 * group) (value / 256 % 256)).store buffer (2 * group + 1) (value % 256)

/-- The end of a group: the number is checked and stored. -/
def Scan6.storeField (scan : Scan6) (numstr : List Char) : Option Scan6 :=
  let value := (strtol numstr 16).1
  if value < 0 ∨ 0xffff < value then none
  else if scan.rtime then
    some { scan with nrsep := scan.nrsep + 1,
                     mem := scan.mem.storeGroup .rip scan.nrsep value.toNat }
  else
    some { scan with nsep := scan.nsep + 1,
                     mem := scan.mem.storeGroup .ip scan.nsep value.toNat }

/-- The end of the text: the separators are counted and the groups are copied. -/
def Scan6.finish (scan : Scan6) : Pton :=
  if (scan.nsep ≤ 1 ∧ scan.nrsep ≤ 0) ∨ scan.nsep + scan.nrsep < 1 ∨
      8 < scan.nsep + scan.nrsep then
    ⟨0, scan.mem⟩
  else
    ⟨1, (scan.mem.memcpy 0 .ip (2 * scan.nsep)).memcpy (16 - 2 * scan.nrsep) .rip (2 * scan.nrsep)⟩

/-- The loop of `inet_ipv6_pton`, with the digits of the group so far. -/
def scan6 : List Char → List Char → Scan6 → Pton
  | [], numstr, scan =>
    match scan.storeField numstr with
    | none => ⟨0, scan.mem⟩
    | some scan => scan.finish
  | ch :: src, numstr, scan =>
    if ch = ':' then
      if 8 ≤ scan.nsep + scan.nrsep then ⟨0, scan.mem⟩
      else if numstr.length < 1 then
        if scan.rtime ∧ 1 < scan.nrsep then ⟨0, scan.mem⟩
        else scan6 src [] { scan with rtime := true }
      else
        match scan.storeField numstr with
        | none => ⟨0, scan.mem⟩
        | some scan => scan6 src [] scan
    else if isHexadecimal ch then
      if 5 ≤ (numstr ++ [ch]).length then ⟨0, scan.mem⟩ else scan6 src (numstr ++ [ch]) scan
    else ⟨0, scan.mem⟩

def inetIpv6Pton (src : List Char) (mem : Memory) : Pton :=
  scan6 src [] ⟨0, 0, false, mem.clear .dest 16⟩

def inet6Addrstrlen : Nat := 46

/-- The number of zero groups at the start. -/
def zeroCount : List Nat → Nat
  | [] => 0
  | word :: rest => if word = 0 then zeroCount rest + 1 else 0

/-- A run of zeros, `maxentry` and `maxcount` of the printer when there is one. -/
structure Gap where
  entry : Nat
  count : Nat
  positive : 0 < count
deriving DecidableEq

/-- `maxcount`, which is zero as long as there is no run. -/
def maxcount (best : Option Gap) : Nat := best.elim 0 Gap.count

/-- The loop that looks for the longest run of zeros. -/
def findGap (warray : List Nat) (offset : Nat) (best : Option Gap) : Option Gap :=
  if offset < 8 then
    if warray.getD offset 0 = 0 then
      let count := zeroCount (warray.drop (offset + 1)) + 1
      findGap warray (offset + count + 1)
        (if maxcount best < count then some ⟨offset, count, Nat.succ_pos _⟩ else best)
    else findGap warray (offset + 1) best
  else best
termination_by 8 - offset

/-- The run that starts at a group. -/
def gapAt (best : Option Gap) (offset : Nat) : Option Gap :=
  best.filter (fun gap => gap.entry = offset)

/-- `snprintf` behind the text in the buffer: the text is cut at the size, and the size that is left
is the old size less the length of the whole text. -/
def printAt (dest : List Char) (size : Nat) (text : List Char) : List Char × Nat :=
  (dest ++ text.take (size - 1), Word.sub 32 size text.length)

/-- The loop that prints the groups. -/
def printGroups (warray : List Nat) (best : Option Gap) (offset : Nat) (dest : List Char)
    (size : Nat) : List Char :=
  if offset < 8 then
    match gapAt best offset with
    | some gap =>
      let colon := printAt dest size [':']
      let next := offset + gap.count
      if 8 ≤ next then (printAt colon.1 colon.2 [':']).1
      else printGroups warray best next colon.1 colon.2
    | none =>
      let colon := if 0 < offset then printAt dest size [':'] else (dest, size)
      let group := printAt colon.1 colon.2 (Nat.toDigits 16 (warray.getD offset 0))
      printGroups warray best (offset + 1) group.1 group.2
  else dest
termination_by 8 - offset
decreasing_by
  · have positive := gap.positive
    omega
  · omega

/-- A group of an address in network byte order. -/
def groupAt (address : Nat → Nat) (group : Nat) : Nat :=
  256 * address (2 * group) + address (2 * group + 1)

/-- `inet_ipv6_ntop`, the text in the buffer or `none` for `-ENOSPC`. -/
def inetIpv6Ntop (address : Nat → Nat) (size : Nat) : Option (List Char) :=
  if size < inet6Addrstrlen then none
  else
    let warray := (List.range 8).map (groupAt address)
    some (printGroups warray (findGap warray 0 none) 0 [] size)

end Chewie.Libc.Net
