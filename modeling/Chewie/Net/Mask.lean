import Chewie.Lib.Word

/-!
# Prefixes and masks of IPv6 addresses

An address is an array of eight half-words in network byte order, which a little-endian machine
reads with the first byte as the low one.
-/

namespace Chewie.Net

open Word

/-- `net_ipv6addr_t`. -/
abbrev Ipv6addr : Type := Nat → BitVec 16

/-- `net_ipv6_pref2mask`, in 32-bit unsigned arithmetic. -/
def netIpv6Pref2mask (preflen : Nat) : Ipv6addr := fun i =>
  let bit := i <<< 4
  if preflen > bit then
    if preflen ≥ bit + 16 then 0xffff
    else BitVec.ofNat 16 (0xffff <<< sub 32 16 (sub 32 bit preflen))
  else 0

def ntohs (hword : BitVec 16) : BitVec 16 := hword <<< 8 ||| hword >>> 8

/-- `net_msbits4`, with `g_nibblemap`. -/
def netMsbits4 (nibble : BitVec 8) : Nat :=
  [0, 0, 0, 0, 0, 0, 0, 0, 1, 1, 1, 1, 2, 2, 3, 4].getD nibble.toNat 0

def netMsbits8 (byval : BitVec 8) : Nat :=
  let ones := netMsbits4 (byval >>> 4)
  if ones = 4 then ones + netMsbits4 (byval &&& 0x0f) else ones

def netMsbits16 (hword : BitVec 16) : Nat :=
  let ones := netMsbits8 ((hword >>> 8).setWidth 8)
  if ones = 8 then ones + netMsbits8 ((hword &&& 0xff).setWidth 8) else ones

/-- The loop of `net_ipv6_mask2pref` over the half-words from `i` on, and what is behind it. -/
def mask2prefLoop (mask : Ipv6addr) : Nat → Nat → Nat → Nat
  | 0, _, preflen => preflen
  | left + 1, i, preflen =>
    if mask i = 0xffff then mask2prefLoop mask left (i + 1) (preflen + 16)
    else preflen + netMsbits16 (ntohs (mask i))

def netIpv6Mask2pref (mask : Ipv6addr) : Nat := mask2prefLoop mask 8 0 0

def netIpv6addrMaskcmp (addr1 addr2 mask : Ipv6addr) : Bool :=
  (List.range 8).reverse.all fun i => addr1 i &&& mask i = addr2 i &&& mask i

/-- A bit of an address, counted from the first in network order. -/
def bitOf (addr : Ipv6addr) (index : Nat) : Bool :=
  (addr (index / 16)).getLsbD (index / 8 % 2 * 8 + (7 - index % 8))

theorem pref2mask_eq : ∀ preflen < 129, ∀ i < 8,
    netIpv6Pref2mask preflen i = if i < preflen / 16 then 0xffff else 0 := by
  decide +kernel

theorem mask2pref_pref2mask : ∀ preflen < 129,
    netIpv6Mask2pref (netIpv6Pref2mask preflen) = preflen / 16 * 16 := by
  decide +kernel

theorem eq_of_bits {addr1 addr2 : Ipv6addr} {i : Nat}
    (same : ∀ index < 16, bitOf addr1 (i * 16 + index) = bitOf addr2 (i * 16 + index)) :
    addr1 i = addr2 i := by
  refine BitVec.eq_of_getLsbD_eq fun place below => ?_
  have bit := same (place / 8 * 8 + (7 - place % 8)) (by omega)
  unfold bitOf at bit
  have word : (i * 16 + (place / 8 * 8 + (7 - place % 8))) / 16 = i := by omega
  have position : (i * 16 + (place / 8 * 8 + (7 - place % 8))) / 8 % 2 * 8 +
      (7 - (i * 16 + (place / 8 * 8 + (7 - place % 8))) % 8) = place := by omega
  rwa [word, position] at bit

/-- Masks compare the whole half-words of the prefix. -/
theorem maskcmp_whole (addr1 addr2 : Ipv6addr) {words : Nat} (few : words ≤ 8) :
    netIpv6addrMaskcmp addr1 addr2 (netIpv6Pref2mask (words * 16)) = true ↔
      ∀ index < words * 16, bitOf addr1 index = bitOf addr2 index := by
  have compared : netIpv6addrMaskcmp addr1 addr2 (netIpv6Pref2mask (words * 16)) = true ↔
      ∀ i < words, addr1 i = addr2 i := by
    simp only [netIpv6addrMaskcmp, List.all_reverse, List.all_eq_true, List.mem_range,
      decide_eq_true_eq]
    have masks := pref2mask_eq (words * 16) (by omega)
    rw [Nat.mul_div_cancel words (by decide)] at masks
    constructor
    · intro all i inside
      have same := all i (by omega)
      rw [masks i (by omega), if_pos inside] at same
      have full : (0xffff : BitVec 16) = BitVec.allOnes 16 := by decide
      rwa [full, BitVec.and_allOnes, BitVec.and_allOnes] at same
    · intro all i below
      rw [masks i below]
      split
      · rename_i inside
        rw [all i inside]
      · simp
  rw [compared]
  constructor
  · intro all index below
    rw [bitOf, bitOf, all (index / 16) (by omega)]
  · intro all i inside
    exact eq_of_bits fun index below => all _ (by omega)

/-- A prefix selects its bits, and is read back from its mask, exactly if it ends with a half-word:
otherwise the half-word at its end is not in the mask. -/
theorem ipv6_prefix_masks (preflen : Fin 129) (addr1 addr2 : Ipv6addr) :
    ((netIpv6addrMaskcmp addr1 addr2 (netIpv6Pref2mask preflen) = true ↔
        ∀ index < preflen.val, bitOf addr1 index = bitOf addr2 index) ∧
      netIpv6Mask2pref (netIpv6Pref2mask preflen) = preflen) ↔ preflen.val % 16 = 0 := by
  rw [mask2pref_pref2mask preflen preflen.isLt]
  constructor
  · intro both
    omega
  · intro whole
    have words : preflen.val = preflen.val / 16 * 16 := by omega
    refine ⟨?_, words.symm⟩
    rw [words]
    exact maskcmp_whole addr1 addr2 (by omega)

/-- With the prefix of 38 bits addresses that differ in bit 33 are the same, and 32 is read back. -/
theorem ipv6_prefix_lost :
    netIpv6addrMaskcmp (fun _ => 0) (fun i => if i = 2 then 0x40 else 0) (netIpv6Pref2mask 38) =
        true ∧
      bitOf (fun _ => 0) 33 ≠ bitOf (fun i => if i = 2 then 0x40 else 0) 33 ∧
      netIpv6Mask2pref (netIpv6Pref2mask 38) = 32 := by
  decide

end Chewie.Net
