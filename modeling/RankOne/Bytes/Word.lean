/-!
# Numbers as byte strings

`littleEndian width n` writes the low `width` bytes of a number, least
significant first, and `ofLittleEndian` reads any byte string back. The
big-endian forms are their reversals.
-/

namespace RankOne

-- Powers of numbers are those of the language, also beside an algebra library.
attribute [local instance (2000)] instPowNat

/-- The low `width` bytes of a number, least significant first. -/
def littleEndian : Nat → Nat → List UInt8
  | 0, _ => []
  | width + 1, n => n.toUInt8 :: littleEndian width (n / 256)

/-- The number whose bytes, least significant first, are given. -/
def ofLittleEndian : List UInt8 → Nat
  | [] => 0
  | byte :: rest => byte.toNat + 256 * ofLittleEndian rest

/-- The low `width` bytes of a number, most significant first. -/
def bigEndian (width n : Nat) : List UInt8 := (littleEndian width n).reverse

/-- The number whose bytes, most significant first, are given. -/
def ofBigEndian (bytes : List UInt8) : Nat := ofLittleEndian bytes.reverse

@[simp] theorem length_littleEndian (width n : Nat) :
    (littleEndian width n).length = width := by
  induction width generalizing n with
  | zero => rfl
  | succ width ih => simp [littleEndian, ih]

theorem ofLittleEndian_littleEndian (width n : Nat) :
    ofLittleEndian (littleEndian width n) = n % 256 ^ width := by
  induction width generalizing n with
  | zero => simp [littleEndian, ofLittleEndian, Nat.mod_one]
  | succ width ih =>
      rw [littleEndian, ofLittleEndian, ih, Nat.pow_succ,
        Nat.mul_comm (256 ^ width), Nat.mod_mul]
      simp

theorem littleEndian_ofLittleEndian (bytes : List UInt8) :
    littleEndian bytes.length (ofLittleEndian bytes) = bytes := by
  induction bytes with
  | nil => rfl
  | cons byte rest ih =>
      have hLow : (byte.toNat + 256 * ofLittleEndian rest) / 256 =
          ofLittleEndian rest := by
        have := byte.toNat_lt
        omega
      have hByte : (byte.toNat + 256 * ofLittleEndian rest).toUInt8 = byte := by
        apply UInt8.toNat_inj.mp
        simp
      rw [List.length_cons, littleEndian, ofLittleEndian, hLow, ih, hByte]

end RankOne
