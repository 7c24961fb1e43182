import Mathlib

/-!
# Little-endian numbers

The bytes of a number, least significant first, cut to a fixed width.
-/

namespace ParLib.Foundations

set_option autoImplicit false

abbrev Byte := Fin 256

instance neZero_byte : NeZero 256 := ⟨by decide⟩

def littleEndian : Nat → Nat → List Byte
  | 0, _ => []
  | width + 1, n => Fin.ofNat 256 n :: littleEndian width (n / 256)

def ofLittleEndian : List Byte → Nat
  | [] => 0
  | b :: bs => b.val + 256 * ofLittleEndian bs

@[simp]
theorem length_littleEndian (width n : Nat) : (littleEndian width n).length = width := by
  induction width generalizing n with
  | zero => rfl
  | succ width ih => rw [littleEndian, List.length_cons, ih]

theorem ofLittleEndian_littleEndian (width n : Nat) :
    ofLittleEndian (littleEndian width n) = n % 256 ^ width := by
  induction width generalizing n with
  | zero => simp [littleEndian, ofLittleEndian, Nat.mod_one]
  | succ width ih =>
    rw [littleEndian, ofLittleEndian, ih, Fin.val_ofNat, pow_succ', Nat.mod_mul]

theorem littleEndian_ofLittleEndian (bs : List Byte) :
    littleEndian bs.length (ofLittleEndian bs) = bs := by
  induction bs with
  | nil => rfl
  | cons b bs ih =>
    have hlow : (b.val + 256 * ofLittleEndian bs) % 256 = b.val := by omega
    have hhigh : (b.val + 256 * ofLittleEndian bs) / 256 = ofLittleEndian bs := by omega
    rw [List.length_cons, ofLittleEndian, littleEndian, hhigh, ih]
    congr 1
    apply Fin.ext
    rw [Fin.val_ofNat, hlow]

theorem ofLittleEndian_lt (bs : List Byte) : ofLittleEndian bs < 256 ^ bs.length := by
  induction bs with
  | nil => simp [ofLittleEndian]
  | cons b bs ih =>
    rw [ofLittleEndian, List.length_cons, pow_succ']
    omega

end ParLib.Foundations
