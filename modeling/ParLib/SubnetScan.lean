import ParLib.Address

/-!
# Which addresses a scan visits

The iterator counts from the lowest address of the subnet to the highest. In
the last subnet of the address space the counter has no value beyond the
highest one: it wraps around, and the scan goes on for ever. An address that
is not read as one counts as all ones and so lies in that subnet.
-/

namespace ParLib

set_option autoImplicit false

open Foundations

/-- The bits that are not the low ones, and ones below them. -/
theorem two_pow_sub_one_or (n x : Nat) : 2 ^ n - 1 ||| x = 2 ^ n * (x / 2 ^ n) + (2 ^ n - 1) := by
  apply Nat.eq_of_testBit_eq
  intro i
  have hlow : 2 ^ n - 1 < 2 ^ n := Nat.sub_lt (Nat.two_pow_pos n) Nat.one_pos
  rw [Nat.testBit_or, Nat.testBit_two_pow_sub_one, Nat.testBit_two_pow_mul_add _ hlow,
    Nat.testBit_two_pow_sub_one]
  by_cases hi : i < n
  · simp [hi]
  · rw [if_neg hi, Nat.testBit_div_two_pow, Nat.sub_add_cancel (not_lt.mp hi)]
    simp [hi]

theorem toNat_ofNat_of_lt {n : Nat} (h : n < 2 ^ 32) : (UInt32.ofNat n).toNat = n :=
  UInt32.toNat_ofNat_of_lt' h

namespace AddrSubnetIterator

variable {bits : Nat}

theorem toNat_stateAddr_new (addrStr : List Byte) (hbits : bits ≤ 31) :
    (new addrStr bits).stateAddr.toNat =
      2 ^ bits * ((parseIPV4Addr addrStr).toNat / 2 ^ bits) := by
  have hle := Nat.mul_div_le (parseIPV4Addr addrStr).toNat (2 ^ bits)
  have hlt := (parseIPV4Addr addrStr).toNat_lt
  have hmod : (UInt32.ofNat bits).toNat % 32 = bits := by
    rw [toNat_ofNat_of_lt (by omega), Nat.mod_eq_of_lt (by omega)]
  simp only [new, UInt32.toNat_shiftLeft, UInt32.toNat_shiftRight, hmod, Nat.shiftLeft_eq,
    Nat.shiftRight_eq_div_pow]
  rw [Nat.mul_comm, Nat.mod_eq_of_lt (by omega)]

theorem toNat_maxAddr_new (addrStr : List Byte) (hpos : 1 ≤ bits) (hbits : bits ≤ 31) :
    (new addrStr bits).maxAddr.toNat =
      2 ^ bits * ((parseIPV4Addr addrStr).toNat / 2 ^ bits) + (2 ^ bits - 1) := by
  have hmod : (UInt32.ofNat (32 - bits)).toNat % 32 = 32 - bits := by
    rw [toNat_ofNat_of_lt (by omega), Nat.mod_eq_of_lt (by omega)]
  have hsplit : 2 ^ 32 = 2 ^ bits * 2 ^ (32 - bits) := by
    rw [← Nat.pow_add, Nat.add_sub_cancel' (by omega)]
  have hones : (0xFFFFFFFF : UInt32).toNat % 2 ^ bits = 2 ^ bits - 1 := by
    have hfull : (0xFFFFFFFF : UInt32).toNat =
        2 ^ bits * (2 ^ (32 - bits) - 1) + (2 ^ bits - 1) := by
      have hbig : 1 ≤ 2 ^ (32 - bits) := Nat.one_le_two_pow
      have hsmall : 1 ≤ 2 ^ bits := Nat.one_le_two_pow
      rw [Nat.mul_sub, Nat.mul_one, ← hsplit]
      have hle : 2 ^ bits ≤ 2 ^ 32 := Nat.pow_le_pow_right Nat.two_pos (by omega)
      change 4294967295 = _
      omega
    rw [hfull, Nat.mul_add_mod, Nat.mod_eq_of_lt (Nat.sub_lt (Nat.two_pow_pos bits) Nat.one_pos)]
  simp only [new, UInt32.toNat_or, UInt32.toNat_shiftRight, UInt32.toNat_shiftLeft, hmod,
    Nat.shiftLeft_eq, Nat.shiftRight_eq_div_pow]
  rw [hsplit, Nat.mul_mod_mul_right, Nat.mul_div_cancel _ (Nat.two_pow_pos _), hones,
    two_pow_sub_one_or]

variable {it : AddrSubnetIterator}

theorem call_zero_of_le (h : it.stateAddr ≤ it.maxAddr) : it.call 0 = dotted it.stateAddr := by
  rw [call, nextAddr, if_pos h]

theorem call_succ_of_le (h : it.stateAddr ≤ it.maxAddr) (i : Nat) :
    it.call (i + 1) = { it with stateAddr := it.stateAddr + 1 }.call i := by
  rw [call, nextAddr, if_pos h]

theorem call_of_lt (h : it.maxAddr < it.stateAddr) (i : Nat) : it.call i = [] := by
  have hnext : it.nextAddr = ([], it) := if_neg (UInt32.not_le.mpr h)
  induction i with
  | zero => rw [call, hnext]
  | succ i ih => rw [call, hnext, ih]

theorem toNat_stateAddr_add_one (h : it.stateAddr.toNat + 1 < 2 ^ 32) :
    (it.stateAddr + 1).toNat = it.stateAddr.toNat + 1 := by
  rw [UInt32.toNat_add, UInt32.toNat_one, Nat.mod_eq_of_lt h]

/-- Up to the highest address the calls count on from the current one. -/
theorem call_eq_dotted {i : Nat} (hi : it.stateAddr.toNat + i ≤ it.maxAddr.toNat) :
    it.call i = dotted (UInt32.ofNat (it.stateAddr.toNat + i)) := by
  have hbound := it.maxAddr.toNat_lt
  induction i generalizing it with
  | zero =>
    rw [call_zero_of_le (UInt32.le_iff_toNat_le.mpr (by omega)), Nat.add_zero, UInt32.ofNat_toNat]
  | succ i ih =>
    have hstep : (it.stateAddr + 1).toNat = it.stateAddr.toNat + 1 :=
      toNat_stateAddr_add_one (by omega)
    have hrest := @ih { it with stateAddr := it.stateAddr + 1 }
      (by simp only [hstep]; omega) hbound
    rw [call_succ_of_le (UInt32.le_iff_toNat_le.mpr (by omega)), hrest, hstep]
    congr 2
    omega

/-- Beyond the highest address there is nothing, if the counter can get there. -/
theorem call_eq_nil (hmax : it.maxAddr.toNat + 1 < 2 ^ 32) {i : Nat}
    (hi : it.maxAddr.toNat < it.stateAddr.toNat + i) : it.call i = [] := by
  induction i generalizing it with
  | zero => exact call_of_lt (UInt32.lt_iff_toNat_lt.mpr hi) 0
  | succ i ih =>
    by_cases hle : it.stateAddr.toNat ≤ it.maxAddr.toNat
    · have hstep : (it.stateAddr + 1).toNat = it.stateAddr.toNat + 1 :=
        toNat_stateAddr_add_one (by omega)
      rw [call_succ_of_le (UInt32.le_iff_toNat_le.mpr hle)]
      exact ih hmax (by simp only [hstep]; omega)
    · exact call_of_lt (UInt32.lt_iff_toNat_lt.mpr (not_le.mp hle)) _

/-- No number is beyond the highest one of all. -/
theorem call_ne_nil (hmax : it.maxAddr.toNat + 1 = 2 ^ 32) (i : Nat) : it.call i ≠ [] := by
  have hle : it.stateAddr ≤ it.maxAddr := by
    have hlt := it.stateAddr.toNat_lt
    exact UInt32.le_iff_toNat_le.mpr (by omega)
  induction i generalizing it with
  | zero =>
    rw [call_zero_of_le hle]
    exact dotted_ne_nil _
  | succ i ih =>
    rw [call_succ_of_le hle]
    have hlt := (it.stateAddr + 1).toNat_lt
    exact @ih { it with stateAddr := it.stateAddr + 1 } hmax
      (UInt32.le_iff_toNat_le.mpr (by simp only; omega))

end AddrSubnetIterator

open AddrSubnetIterator

/-- The loop visits what the calls return before the first empty string. -/
theorem discoverLoop_eq {it : AddrSubnetIterator} {n : Nat} (hcalls : ∀ i < n, it.call i ≠ [])
    (hend : it.call n = []) (tries : Nat) :
    discoverLoop none (n + 1) tries it = some ((List.range n).map it.call) := by
  induction n generalizing it tries with
  | zero =>
    have hnil : it.nextAddr.1 = [] := hend
    simp [discoverLoop, hnil]
  | succ n ih =>
    have hfirst : it.nextAddr.1 ≠ [] := hcalls 0 (Nat.succ_pos n)
    have hrest := @ih it.nextAddr.2 (fun i hi => hcalls (i + 1) (by omega)) hend (tries + 1)
    rw [discoverLoop]
    simp only [Option.any_none, Bool.false_eq_true, if_false, hfirst, hrest, Option.map_some,
      List.range_succ_eq_map, List.map_cons, List.map_map]
    rfl

/-- The addresses of a subnet, the lowest `bits` bits counting through. -/
def subnet (base bits : Nat) : List UInt32 :=
  (List.range (2 ^ bits)).map fun i => UInt32.ofNat (base + i)

theorem toNat_of_mem_range {base bits i : Nat} (hbase : base + 2 ^ bits ≤ 2 ^ 32)
    (hi : i < 2 ^ bits) : (UInt32.ofNat (base + i)).toNat = base + i :=
  toNat_ofNat_of_lt (by omega)

theorem subnet_pairwise {base bits : Nat} (hbase : base + 2 ^ bits ≤ 2 ^ 32) :
    (subnet base bits).Pairwise (· < ·) := by
  rw [subnet, List.pairwise_map]
  apply List.pairwise_lt_range.imp_of_mem
  intro i j hi hj hlt
  rw [UInt32.lt_iff_toNat_lt, toNat_of_mem_range hbase (List.mem_range.mp hi),
    toNat_of_mem_range hbase (List.mem_range.mp hj)]
  omega

theorem mem_subnet {q bits : Nat} (hbase : 2 ^ bits * q + 2 ^ bits ≤ 2 ^ 32) {addr : UInt32} :
    addr ∈ subnet (2 ^ bits * q) bits ↔ addr.toNat / 2 ^ bits = q := by
  have hpos := Nat.two_pow_pos bits
  rw [subnet, List.mem_map]
  constructor
  · rintro ⟨i, hi, rfl⟩
    have hi := List.mem_range.mp hi
    rw [toNat_of_mem_range hbase hi, Nat.mul_add_div hpos, Nat.div_eq_of_lt hi, Nat.add_zero]
  · intro hq
    refine ⟨addr.toNat % 2 ^ bits, List.mem_range.mpr (Nat.mod_lt _ hpos), ?_⟩
    rw [← hq, Nat.div_add_mod, UInt32.ofNat_toNat]

/-- The calls go through the subnet of an address once, in increasing order, and the
loop of `DiscoverAll` with them. -/
def ScansSubnet (addrStr : List Byte) (bits : Nat) : Prop :=
  ∃ addrs : List UInt32, addrs.length = 2 ^ bits ∧ addrs.Pairwise (· < ·) ∧
    (∀ addr, addr ∈ addrs ↔
      addr.toNat / 2 ^ bits = (parseIPV4Addr addrStr).toNat / 2 ^ bits) ∧
    (∀ i, (new addrStr bits).call i = (addrs[i]?.map dotted).getD []) ∧
    ∃ fuel, discoverLoop none fuel 0 (new addrStr bits) = some (addrs.map dotted)

theorem scansSubnet_of_lt {addrStr : List Byte} {bits : Nat} (hpos : 1 ≤ bits)
    (hbits : bits ≤ 31)
    (hlast : (parseIPV4Addr addrStr).toNat / 2 ^ bits < 2 ^ (32 - bits) - 1) :
    ScansSubnet addrStr bits := by
  have hstate := toNat_stateAddr_new addrStr hbits
  have hmax := toNat_maxAddr_new addrStr hpos hbits
  generalize hq : (parseIPV4Addr addrStr).toNat / 2 ^ bits = q at hstate hmax hlast
  have hpow := Nat.two_pow_pos bits
  have hsplit : 2 ^ 32 = 2 ^ bits * 2 ^ (32 - bits) := by
    rw [← Nat.pow_add, Nat.add_sub_cancel' (by omega)]
  have hbase : 2 ^ bits * q + 2 ^ bits < 2 ^ 32 := by
    calc 2 ^ bits * q + 2 ^ bits = 2 ^ bits * (q + 1) := by rw [Nat.mul_add, Nat.mul_one]
      _ < 2 ^ bits * 2 ^ (32 - bits) := Nat.mul_lt_mul_of_pos_left (by omega) hpow
      _ = 2 ^ 32 := hsplit.symm
  have hcall : ∀ i, (new addrStr bits).call i =
      ((subnet (2 ^ bits * q) bits)[i]?.map dotted).getD [] := by
    intro i
    by_cases hi : i < 2 ^ bits
    · rw [call_eq_dotted (by omega), hstate, subnet, List.getElem?_map, List.getElem?_range hi]
      rfl
    · rw [call_eq_nil (by omega) (by omega), List.getElem?_eq_none (by simp [subnet]; omega)]
      rfl
  refine ⟨subnet (2 ^ bits * q) bits, by simp [subnet], subnet_pairwise hbase.le,
    fun addr => by rw [mem_subnet hbase.le, hq], hcall, 2 ^ bits + 1, ?_⟩
  rw [discoverLoop_eq]
  · congr 1
    rw [subnet, List.map_map]
    apply List.map_congr_left
    intro i hi
    have hi := List.mem_range.mp hi
    rw [call_eq_dotted (by omega), hstate, Function.comp_apply]
  · intro i hi
    rw [call_eq_dotted (by omega)]
    exact dotted_ne_nil _
  · exact call_eq_nil (by omega) (by omega)

/-- A scan ends, and has then visited its subnet, unless that is the last one. -/
theorem scansSubnet_iff (addrStr : List Byte) (bits : Nat) (hpos : 1 ≤ bits) (hbits : bits ≤ 31) :
    ScansSubnet addrStr bits ↔
      (parseIPV4Addr addrStr).toNat / 2 ^ bits ≠ 2 ^ (32 - bits) - 1 := by
  have hsplit : 2 ^ 32 = 2 ^ (32 - bits) * 2 ^ bits := by
    rw [← Nat.pow_add, Nat.sub_add_cancel (by omega)]
  have hlt : (parseIPV4Addr addrStr).toNat / 2 ^ bits < 2 ^ (32 - bits) := by
    rw [Nat.div_lt_iff_lt_mul (Nat.two_pow_pos bits), ← hsplit]
    exact (parseIPV4Addr addrStr).toNat_lt
  constructor
  · rintro ⟨addrs, hlen, -, -, hcall, -⟩ hlast
    have hmax := toNat_maxAddr_new addrStr hpos hbits
    have hhigh : (new addrStr bits).maxAddr.toNat + 1 = 2 ^ 32 := by
      have hle : 2 ^ bits ≤ 2 ^ 32 := Nat.pow_le_pow_right Nat.two_pos (by omega)
      have hone := Nat.two_pow_pos bits
      rw [hmax, hlast, Nat.mul_sub, Nat.mul_one, Nat.mul_comm, ← hsplit]
      omega
    apply call_ne_nil hhigh (2 ^ bits)
    rw [hcall, List.getElem?_eq_none hlen.le]
    rfl
  · intro hne
    exact scansSubnet_of_lt hpos hbits (by omega)

/-- The text "10.0.0.1" and the subnet of 256 addresses around it. -/
theorem scansSubnet_iff_ten :
    (1 ≤ 8 ∧ 8 ≤ 31) ∧
      (parseIPV4Addr [49, 48, 46, 48, 46, 48, 46, 49]).toNat / 2 ^ 8 ≠ 2 ^ (32 - 8) - 1 ∧
      ScansSubnet [49, 48, 46, 48, 46, 48, 46, 49] 8 := by
  have hne : (parseIPV4Addr [49, 48, 46, 48, 46, 48, 46, 49]).toNat / 2 ^ 8 ≠ 2 ^ (32 - 8) - 1 := by
    decide
  exact ⟨by decide, hne, (scansSubnet_iff _ 8 (by decide) (by decide)).mpr hne⟩

/-- The text "x" is no address, and its scan does not end. -/
theorem scan_of_no_address_goes_on :
    ¬ ∀ (addrStr : List Byte) (bits : Nat), 1 ≤ bits → bits ≤ 31 → ScansSubnet addrStr bits := by
  intro h
  obtain ⟨addrs, hlen, -, -, hcall, -⟩ := h [120] 8 (by decide) (by decide)
  have hmax : (new [120] 8).maxAddr.toNat + 1 = 2 ^ 32 := by decide
  apply call_ne_nil hmax (2 ^ 8)
  rw [hcall, List.getElem?_eq_none hlen.le]
  rfl

end ParLib
