import ParLib.Address

/-!
# Texts of addresses

A dotted quad is read as the address with its bytes, and so are the texts that
`NextAddr` prints. Of the other texts the parser rejects those that have not
four parts. It never rejects a part: what is no number there counts as one.
-/

namespace ParLib

set_option autoImplicit false

open Foundations

/-- A part of a dotted quad and its number. -/
def IsPart (part : List Byte) (num : Nat) : Prop :=
  part = [42] ∧ num = 0 ∨ IsNumeral part num ∧ num ≤ 255

/-- Four parts with dots between them, and their numbers. -/
def IsQuad (addrStr : List Byte) (a b c d : Nat) : Prop :=
  ∃ p q r s, addrStr = p ++ [46] ++ q ++ [46] ++ r ++ [46] ++ s ∧
    IsPart p a ∧ IsPart q b ∧ IsPart r c ∧ IsPart s d

/-- A dotted quad is read as its address, and everything else is an error. -/
def AcceptsQuads (addrStr : List Byte) : Prop :=
  (∀ a b c d, IsQuad addrStr a b c d →
    (parseIPV4Addr addrStr).toNat = 2 ^ 24 * a + 2 ^ 16 * b + 2 ^ 8 * c + d) ∧
  ((¬ ∃ a b c d, IsQuad addrStr a b c d) → parseIPV4Addr addrStr = 0xFFFFFFFF)

theorem splitIPV4Addr_eq (addrStr : List Byte) : splitIPV4Addr addrStr = addrStr.splitOn 46 := by
  have hnothing : ∀ text : List Byte,
      (text.splitOn 46).modifyHead ([] ++ ·) = text.splitOn 46 := by
    intro text
    exact congrFun List.modifyHead_id _
  -- the last of the parts so far goes on with the first part of what is to come
  have hstep : ∀ (text : List Byte) (done : List (List Byte)) (part : List Byte),
      text.foldl (fun parts c =>
        if c = 46 then parts ++ [[]] else parts.dropLast ++ [parts.getLastD [] ++ [c]])
        (done ++ [part]) = done ++ (text.splitOn 46).modifyHead (part ++ ·) := by
    intro text
    induction text with
    | nil => simp
    | cons c text ih =>
      intro done part
      rw [List.foldl_cons, List.splitOn_cons_eq_if_modifyHead]
      split
      · rename_i hdot
        rw [ih (done ++ [part]) [], hdot, beq_self_eq_true, if_pos rfl, List.append_assoc,
          hnothing]
        simp
      · rename_i hother
        have hne : (c == 46) = false := beq_eq_false_iff_ne.mpr hother
        rw [hne, List.dropLast_concat, List.getLastD_concat, ih]
        simp [List.modifyHead_modifyHead, Function.comp_def]
  rw [splitIPV4Addr, ← hnothing]
  exact hstep addrStr [] []

theorem IsPart.not_mem {part : List Byte} {num : Nat} (h : IsPart part num) : 46 ∉ part := by
  intro hdot
  rcases h with ⟨rfl, -⟩ | ⟨hnum, -⟩
  · exact absurd hdot (by decide)
  · exact absurd (hnum.2.1 46 hdot) (by decide)

theorem val_parsePart {part : List Byte} {num : Nat} (h : IsPart part num) :
    (parsePart part).val = num := by
  rw [parsePart]
  rcases h with ⟨rfl, rfl⟩ | ⟨hnum, hle⟩
  · rfl
  · have hstar : part ≠ [42] := by
      rintro rfl
      exact absurd (hnum.2.1 42 (by simp)) (by decide)
    rw [if_neg hstar, extractInt_of_isNumeral hnum (by omega), Fin.val_ofNat]
    omega

/-- The value of four bytes, the last one first. -/
theorem ofLittleEndian_four (a b c d : Byte) :
    ofLittleEndian [d, c, b, a] =
      2 ^ 24 * a.val + 2 ^ 16 * b.val + 2 ^ 8 * c.val + d.val := by
  simp only [ofLittleEndian]
  omega

theorem toNat_parseIPV4Addr {addrStr p q r s : List Byte}
    (h : splitIPV4Addr addrStr = [p, q, r, s]) :
    (parseIPV4Addr addrStr).toNat =
      2 ^ 24 * (parsePart p).val + 2 ^ 16 * (parsePart q).val + 2 ^ 8 * (parsePart r).val +
        (parsePart s).val := by
  have hvalue : parseIPV4Addr addrStr = UInt32.ofNat
      (ofLittleEndian [parsePart s, parsePart r, parsePart q, parsePart p]) := by
    rw [parseIPV4Addr, h]
    rfl
  rw [hvalue, ofLittleEndian_four]
  apply UInt32.toNat_ofNat_of_lt'
  change _ < 2 ^ 32
  omega

section Quads

variable {addrStr : List Byte} {a b c d : Nat}

theorem IsQuad.split (h : IsQuad addrStr a b c d) :
    ∃ p q r s, splitIPV4Addr addrStr = [p, q, r, s] ∧
      IsPart p a ∧ IsPart q b ∧ IsPart r c ∧ IsPart s d := by
  obtain ⟨p, q, r, s, rfl, hp, hq, hr, hs⟩ := h
  refine ⟨p, q, r, s, ?_, hp, hq, hr, hs⟩
  have hjoin : p ++ [46] ++ q ++ [46] ++ r ++ [46] ++ s =
      ([46] : List Byte).intercalate [p, q, r, s] := by simp [List.intercalate]
  rw [splitIPV4Addr_eq, hjoin, List.splitOn_intercalate]
  · simp [hp.not_mem, hq.not_mem, hr.not_mem, hs.not_mem]
  · simp

theorem IsQuad.toNat_parseIPV4Addr (h : IsQuad addrStr a b c d) :
    (parseIPV4Addr addrStr).toNat = 2 ^ 24 * a + 2 ^ 16 * b + 2 ^ 8 * c + d := by
  obtain ⟨p, q, r, s, hsplit, hp, hq, hr, hs⟩ := h.split
  rw [ParLib.toNat_parseIPV4Addr hsplit, val_parsePart hp, val_parsePart hq, val_parsePart hr,
    val_parsePart hs]

theorem isQuad_dotted {addr : UInt32} {p q r s : Byte}
    (h : littleEndian 4 addr.toNat = [s, r, q, p]) : IsQuad (dotted addr) p q r s := by
  have hpart : ∀ b : Byte, IsPart (decimalText (b.val + 1) b.val) b.val := fun b =>
    .inr ⟨isNumeral_decimalText (Nat.lt_succ_self b.val), by omega⟩
  refine ⟨_, _, _, _, ?_, hpart p, hpart q, hpart r, hpart s⟩
  rw [dotted, h]
  simp [List.intercalate]

end Quads

/-- What `NextAddr` prints is read as the address that it was at. -/
theorem printed_address_parses_back (it : AddrSubnetIterator) (h : it.stateAddr ≤ it.maxAddr) :
    (splitIPV4Addr it.nextAddr.1).length = 4 ∧ parseIPV4Addr it.nextAddr.1 = it.stateAddr := by
  have hprinted : it.nextAddr.1 = dotted it.stateAddr := by
    rw [AddrSubnetIterator.nextAddr, if_pos h]
  obtain ⟨s, r, q, p, hbytes⟩ : ∃ s r q p, littleEndian 4 it.stateAddr.toNat = [s, r, q, p] :=
    ⟨_, _, _, _, rfl⟩
  have hquad := isQuad_dotted hbytes
  obtain ⟨_, _, _, _, hsplit, -⟩ := hquad.split
  rw [hprinted, hsplit]
  refine ⟨rfl, ?_⟩
  apply UInt32.toNat_inj.mp
  rw [hquad.toNat_parseIPV4Addr, ← ofLittleEndian_four, ← hbytes, ofLittleEndian_littleEndian]
  exact Nat.mod_eq_of_lt it.stateAddr.toNat_lt

theorem printed_address_parses_back_local :
    let it : AddrSubnetIterator := ⟨8, 0xC0A80101, 0xC0A80105, 0xC0A801FF⟩
    it.stateAddr ≤ it.maxAddr ∧
      (splitIPV4Addr it.nextAddr.1).length = 4 ∧ parseIPV4Addr it.nextAddr.1 = it.stateAddr :=
  ⟨by decide, printed_address_parses_back ⟨8, 0xC0A80101, 0xC0A80105, 0xC0A801FF⟩ (by decide)⟩

/-- The error value comes out of four parts that all count as 255. -/
theorem parseIPV4Addr_eq_error_iff {addrStr : List Byte}
    (h : (addrStr.splitOn 46).length = 4) :
    parseIPV4Addr addrStr = 0xFFFFFFFF ↔
      ∀ part ∈ addrStr.splitOn 46, part ≠ [42] ∧ extractInt part % 256 = 255 := by
  have hpart : ∀ part : List Byte,
      (parsePart part).val = 255 ↔ part ≠ [42] ∧ extractInt part % 256 = 255 := by
    intro part
    rw [parsePart]
    split
    · rename_i hstar
      simp [hstar]
    · rename_i hother
      rw [Fin.val_ofNat, and_iff_right hother]
      omega
  obtain ⟨p, q, r, s, hsplit⟩ := List.length_eq_four.mp h
  rw [← UInt32.toNat_inj, toNat_parseIPV4Addr ((splitIPV4Addr_eq addrStr).trans hsplit), hsplit]
  have hp := (parsePart p).isLt
  have hq := (parsePart q).isLt
  have hr := (parsePart r).isLt
  have hs := (parsePart s).isLt
  simp only [List.forall_mem_cons, ← hpart, List.not_mem_nil, false_implies, implies_true, and_true]
  change _ = 4294967295 ↔ _
  omega

/-- Only what has four parts without being a dotted quad is read wrong, unless all of its parts
happen to count as 255. -/
theorem accepts_quads_iff (addrStr : List Byte) :
    AcceptsQuads addrStr ↔ (∃ a b c d, IsQuad addrStr a b c d) ∨
      (addrStr.splitOn 46).length ≠ 4 ∨
      ∀ part ∈ addrStr.splitOn 46, part ≠ [42] ∧ extractInt part % 256 = 255 := by
  constructor
  · rintro ⟨-, herror⟩
    by_cases hquad : ∃ a b c d, IsQuad addrStr a b c d
    · exact .inl hquad
    · by_cases hlen : (addrStr.splitOn 46).length = 4
      · exact .inr (.inr ((parseIPV4Addr_eq_error_iff hlen).mp (herror hquad)))
      · exact .inr (.inl hlen)
  · intro h
    refine ⟨fun a b c d hquad => hquad.toNat_parseIPV4Addr, fun hquad => ?_⟩
    by_cases hlen : (addrStr.splitOn 46).length = 4
    · rw [parseIPV4Addr_eq_error_iff hlen]
      exact (h.resolve_left hquad).resolve_left (not_not.mpr hlen)
    · rw [parseIPV4Addr, splitIPV4Addr_eq, if_pos hlen]

/-- The text "1.2.3.256" has a part that is no byte, and is read as 1.2.3.0. -/
theorem part_out_of_range_is_accepted :
    ¬ ∀ addrStr : List Byte, AcceptsQuads addrStr := by
  intro h
  have hread : parseIPV4Addr [49, 46, 50, 46, 51, 46, 50, 53, 54] = 0x01020300 := by decide
  have hquad : ¬ ∃ a b c d, IsQuad [49, 46, 50, 46, 51, 46, 50, 53, 54] a b c d := by
    rintro ⟨a, b, c, d, hquad⟩
    obtain ⟨p, q, r, s, hsplit, -, -, -, hs⟩ := hquad.split
    have hparts : splitIPV4Addr [49, 46, 50, 46, 51, 46, 50, 53, 54] =
        [[49], [50], [51], [50, 53, 54]] := by decide
    rw [hparts] at hsplit
    cases hsplit
    cases hs with
    | inl hs => exact absurd hs.1 (by decide)
    | inr hs =>
      have hvalue : decimalValue [50, 53, 54] = 256 := by decide
      have hnum := hs.1.2.2
      omega
  have herror := (h [49, 46, 50, 46, 51, 46, 50, 53, 54]).2 hquad
  rw [hread] at herror
  exact absurd herror (by decide)

end ParLib
