import ParLib.TextNumbers

/-!
# Addresses and the scan of a subnet

An address is a 32-bit number; its bytes stand in memory least significant
first and in the text most significant first. `ParseIPV4Addr` splits the text
at its dots and reads each part into an `int` of a `stringstream` of its own.
-/

namespace ParLib

set_option autoImplicit false

open Foundations

/-- The part that is being written is the last one. -/
def splitIPV4Addr (addrStr : List Byte) : List (List Byte) :=
  addrStr.foldl
    (fun parts c =>
      if c = 46 then parts ++ [[]] else parts.dropLast ++ [parts.getLastD [] ++ [c]])
    [[]]

/-- One byte of an address: `*`, or what remains of the number in a `uint8_t`. -/
def parsePart (part : List Byte) : Byte :=
  if part = [42] then 0 else Fin.ofNat 256 (extractInt part % 256).toNat

/-- Without four parts the error value -1 is returned, as an unsigned number. -/
def parseIPV4Addr (addrStr : List Byte) : UInt32 :=
  let parts := splitIPV4Addr addrStr
  if parts.length ≠ 4 then 0xFFFFFFFF
  else UInt32.ofNat (ofLittleEndian (parts.map parsePart).reverse)

/-- The bytes of an address in memory, from the last to the first, with dots between. -/
def dotted (addr : UInt32) : List Byte :=
  [46].intercalate ((littleEndian 4 addr.toNat).reverse.map fun b => decimalText (b.val + 1) b.val)

structure AddrSubnetIterator where
  bits : Nat
  addr : UInt32
  stateAddr : UInt32
  maxAddr : UInt32

namespace AddrSubnetIterator

def new (addrStr : List Byte) (bits : Nat) : AddrSubnetIterator :=
  let addr := parseIPV4Addr addrStr
  let low := UInt32.ofNat bits
  let high := UInt32.ofNat (32 - bits)
  { bits := bits
    addr := addr
    stateAddr := addr >>> low <<< low
    maxAddr := (0xFFFFFFFF : UInt32) <<< high >>> high ||| addr }

def nextAddr (it : AddrSubnetIterator) : List Byte × AddrSubnetIterator :=
  if it.stateAddr ≤ it.maxAddr then
    (dotted it.stateAddr, { it with stateAddr := it.stateAddr + 1 })
  else ([], it)

/-- What the i-th call from here on returns. -/
def call : AddrSubnetIterator → Nat → List Byte
  | it, 0 => it.nextAddr.1
  | it, i + 1 => call it.nextAddr.2 i

end AddrSubnetIterator

/-- The loop of `DiscoverAll`, with the addresses it tries to reach; only where a
number of tries is given does it stop by itself. `none` is a loop that goes on. -/
def discoverLoop (maxTries : Option Nat) : Nat → Nat → AddrSubnetIterator →
    Option (List (List Byte))
  | 0, _, _ => none
  | fuel + 1, tries, addrIterator =>
    if maxTries.any (· < tries) then some []
    else
      let next := addrIterator.nextAddr
      if next.1 = [] then some []
      else (discoverLoop maxTries fuel (tries + 1) next.2).map (next.1 :: ·)

theorem dotted_ne_nil (addr : UInt32) : dotted addr ≠ [] := by
  intro hnil
  have hlen := congrArg List.length hnil
  simp [dotted, littleEndian, List.intercalate, List.intersperse] at hlen

end ParLib
