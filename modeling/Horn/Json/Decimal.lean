/-! # The size of a decimal number

    A number too large for double precision counts as malformed, so its size is
    found out while it is read: a significand of at most 64 bits and a power of
    ten.  Digits that do not fit into the significand lose their value but not
    their place.  The number is then the product of the two in double precision,
    which rounds three times: the significand, the power of ten and the product.
    All three are natural numbers wherever the product can be too large, so the
    rounding is told for natural numbers. -/

namespace Horn.Json

/-! ## Rounding -/

/-- The multiple of `unit` nearest to `n`; halfway between two of them, the even one. -/
def nearestMultiple (unit n : Nat) : Nat :=
  let q := n / unit
  let r := n % unit
  if 2 * r < unit ∨ 2 * r = unit ∧ q % 2 = 0 then q * unit else (q + 1) * unit

/-- `n` with `bits` significant binary digits. -/
def roundTo (bits n : Nat) : Nat := nearestMultiple (Nat.pow 2 (n.log2 + 1 - bits)) n

/-- A multiple of one is already there. -/
@[simp] theorem nearestMultiple_one (n : Nat) : nearestMultiple 1 n = n := by
  simp [nearestMultiple, Nat.mod_one]

/-- The nearest multiple is at most half a unit away. -/
theorem nearestMultiple_near {unit : Nat} (n : Nat) (h : 0 < unit) :
    2 * nearestMultiple unit n ≤ 2 * n + unit ∧ 2 * n ≤ 2 * nearestMultiple unit n + unit := by
  have split_n : unit * (n / unit) + n % unit = n := Nat.div_add_mod n unit
  have below : n / unit * unit = unit * (n / unit) := Nat.mul_comm ..
  have above : (n / unit + 1) * unit = n / unit * unit + unit := Nat.succ_mul ..
  have rest : n % unit < unit := Nat.mod_lt n h
  simp only [nearestMultiple]
  split <;> omega

/-- Halfway between two multiples the even one is taken. -/
theorem nearestMultiple_halfway {unit n : Nat} (h : 2 * (n % unit) = unit) :
    ∃ q, q % 2 = 0 ∧ nearestMultiple unit n = q * unit := by
  rcases Nat.mod_two_eq_zero_or_one (n / unit) with even | odd
  · exact ⟨n / unit, even, by simp [nearestMultiple, h, even]⟩
  · exact ⟨n / unit + 1, by omega, by simp [nearestMultiple, h, odd]⟩

/-- A number with no more binary digits than asked for stays as it is. -/
theorem roundTo_of_lt {bits n : Nat} (h : n < Nat.pow 2 bits) : roundTo bits n = n := by
  rcases Nat.eq_zero_or_pos n with rfl | pos
  · simp [roundTo, nearestMultiple]
  · have few : n.log2 + 1 ≤ bits := (Nat.log2_lt (Nat.ne_of_gt pos)).mpr h
    simp [roundTo, Nat.sub_eq_zero_of_le few]

/-! ## Numbers as they are read -/

/-- The number `significand` times ten to the power `exponent`. -/
structure Decimal where
  significand : Nat
  exponent : Int
  deriving DecidableEq, Repr

namespace Decimal

/-- Appends digits to a significand as long as it has 64 bits.  Returns the digits
    that are left. -/
def append (m : Nat) : List Nat → Nat × List Nat
  | [] => (m, [])
  | d :: ds => if 10 * m + d < Nat.pow 2 64 then append (10 * m + d) ds else (m, d :: ds)

/-- The number with the digits `ds` before the point. -/
def ofDigits (ds : List Nat) : Decimal :=
  let (m, left) := append 0 ds
  ⟨m, left.length⟩

/-- The number with the digits `ds` after its point. -/
def withFraction (x : Decimal) (ds : List Nat) : Decimal :=
  let (m, left) := append x.significand ds
  ⟨m, x.exponent - (ds.length - left.length)⟩

/-- The number times ten to the power `e`. -/
def scale (x : Decimal) (e : Int) : Decimal := ⟨x.significand, x.exponent + e⟩

/-- A natural number in double precision, the range aside. -/
def double (n : Nat) : Nat := roundTo 53 n

/-- Whether the number is finite in double precision.  The last power of ten that
    is finite is 308, so zero alone may have a greater one. -/
def isFinite (x : Decimal) : Bool :=
  x.significand = 0 || x.exponent < 0 ||
    x.exponent ≤ 308 &&
      double (double x.significand * double (Nat.pow 10 x.exponent.toNat)) < Nat.pow 2 1024

end Decimal

end Horn.Json
