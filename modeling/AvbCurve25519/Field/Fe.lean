import AvbCurve25519.Bytes
import AvbCurve25519.Field.Prime
import AvbCurve25519.Edwards.Group
import Mathlib.FieldTheory.Finite.Basic

/-!
# Field elements and the curve constants

The code represents an element of `GF(p)`, `p = 2^255 - 19`, by fiat-crypto limbs
(`curve25519_32.h`, which is not among the sources); every `fe_*` arithmetic function
computes its value modulo `p`. Here a field element is that value, in `ZMod p25519`, and
`fe_add`, `fe_sub`, `fe_mul_*`, `fe_sq_*`, `fe_neg` and `fe_carry` are the field operations.
The byte conversions, the comparisons built on them, `fe_pow22523` and `fe_invert` are
translated from `avb_curve25519.c`. The constants `d`, `d2` and `sqrtm1` of
`curve25519_tables_32.h` (also not among the sources) are given their documented values.
-/

namespace AvbCurve25519

/-- A field element. Modelled from the spec: its value modulo `p`. -/
abbrev Fe := ZMod p25519

theorem p25519_eq : p25519 = 57896044618658097711785492504343953926634992332820282019728792003956564819949 :=
  rfl

/-! ## Byte conversions -/

/-- `fiat_25519_from_bytes`. Modelled from the spec: the little-endian value of the 32 bytes,
whose top bit the caller keeps clear, modulo `p`. -/
def feFrombytesStrict (s : List UInt8) : Fe := (leValue s : Fe)

/-- `fe_frombytes` (`avb_curve25519.c:146-151`): clears bit 255 and reads the rest. -/
def feFrombytes (s : List UInt8) : Fe :=
  feFrombytesStrict (s.set 31 (s.getD 31 0 &&& 0x7f))

/-- `fiat_25519_to_bytes` under `fe_tobytes` (`avb_curve25519.c:153-156`). Modelled from the
spec: the canonical little-endian encoding of the value. -/
def feTobytes (f : Fe) : List UInt8 := leBytes 32 f.val

/-- `fe_isnegative` (`avb_curve25519.c:380-386`): bit 0 of the canonical encoding. -/
def feIsnegative (f : Fe) : ℕ := ((feTobytes f).getD 0 0).toNat &&& 1

/-- `fe_isnonzero` (`avb_curve25519.c:366-376`): the canonical encoding differs from zero. -/
def feIsnonzero (f : Fe) : Bool := feTobytes f != List.replicate 32 0

theorem val_lt_two_pow (f : Fe) : f.val < 2 ^ 255 :=
  lt_of_lt_of_le (ZMod.val_lt f) (by rw [p25519]; omega)

theorem leValue_feTobytes (f : Fe) : leValue (feTobytes f) = f.val := by
  rw [feTobytes, leValue_leBytes, Nat.mod_eq_of_lt ((val_lt_two_pow f).trans (by norm_num))]

theorem feFrombytesStrict_feTobytes (f : Fe) : feFrombytesStrict (feTobytes f) = f := by
  rw [feFrombytesStrict, leValue_feTobytes, ZMod.natCast_zmod_val]

@[simp] theorem length_feTobytes (f : Fe) : (feTobytes f).length = 32 := length_leBytes _ _

theorem feIsnegative_eq (f : Fe) : feIsnegative f = f.val % 2 := by
  have h0 : ((feTobytes f).getD 0 0).toNat = f.val % 256 := by
    rw [feTobytes, leBytes]
    simp [UInt8.toNat_ofNat_of_lt (Nat.mod_lt _ (by norm_num : 0 < 256))]
  rw [feIsnegative, h0, Nat.and_one_is_mod, Nat.mod_mod_of_dvd _ (by norm_num)]

theorem feIsnonzero_iff (f : Fe) : feIsnonzero f = true ↔ f ≠ 0 := by
  have hz : leValue (List.replicate 32 (0 : UInt8)) = 0 := by simp [List.replicate]
  rw [feIsnonzero, bne_iff_ne, ne_eq, ne_eq, not_iff_not]
  constructor
  · intro h
    rw [← ZMod.val_eq_zero, ← leValue_feTobytes, h, hz]
  · rintro rfl
    exact eq_of_leValue_eq (by simp) (by rw [leValue_feTobytes, hz, ZMod.val_zero])

theorem feFrombytes_eq (s : List UInt8) (hs : s.length = 32) :
    feFrombytes s = ((leValue s % 2 ^ 255 : ℕ) : Fe) := by
  rw [feFrombytes, feFrombytesStrict]
  congr 1
  have hset := leValue_set s (show 31 < s.length by omega) (s.getD 31 0 &&& 0x7f)
  have hand : (s.getD 31 0 &&& 0x7f).toNat = (s.getD 31 0).toNat % 2 ^ 7 := by
    rw [UInt8.and_toNat, show (0x7f : UInt8).toNat = 2 ^ 7 - 1 from rfl,
      Nat.and_pow_two_sub_one_eq_mod]
  have hhi := leValue_div_top hs
  have hlo := Nat.mod_lt (leValue s) (show 0 < 256 ^ 31 by positivity)
  have hsplit := Nat.mod_add_div (leValue s) (256 ^ 31)
  have hb := toNat_lt (s.getD 31 0)
  rw [hand] at hset
  rw [hhi] at hsplit
  norm_num at hset hsplit hlo ⊢
  omega

/-- Decoding the canonical encoding gives the element back: its bit 255 is clear. -/
theorem feFrombytes_feTobytes (f : Fe) : feFrombytes (feTobytes f) = f := by
  rw [feFrombytes_eq _ (length_feTobytes f), leValue_feTobytes, Nat.mod_eq_of_lt (val_lt_two_pow f),
    ZMod.natCast_zmod_val]

/-! ## Powers -/

/-- `n` squarings in a row: `fe_sq_tt(&t, &u)` followed by `for (i = 1; i < n; ++i)
fe_sq_tt(&t, &t)`. -/
def feSqN (x : Fe) : ℕ → Fe
  | 0 => x
  | n + 1 => feSqN x n * feSqN x n

theorem feSqN_eq (x : Fe) (n : ℕ) : feSqN x n = x ^ 2 ^ n := by
  induction n with
  | zero => simp [feSqN]
  | succ n ih => rw [feSqN, ih, pow_succ, pow_mul, sq]

/-- `fe_pow22523` (`avb_curve25519.c:398-453`): the addition chain for `z^(2^252 - 3)`. -/
def fePow22523 (z : Fe) : Fe :=
  let t0 := z * z
  let t1 := feSqN t0 2
  let t1 := z * t1
  let t0 := t0 * t1
  let t0 := t0 * t0
  let t0 := t1 * t0
  let t1 := feSqN t0 5
  let t0 := t1 * t0
  let t1 := feSqN t0 10
  let t1 := t1 * t0
  let t2 := feSqN t1 20
  let t1 := t2 * t1
  let t1 := feSqN t1 10
  let t0 := t1 * t0
  let t1 := feSqN t0 50
  let t1 := t1 * t0
  let t2 := feSqN t1 100
  let t1 := t2 * t1
  let t1 := feSqN t1 50
  let t0 := t1 * t0
  let t0 := feSqN t0 2
  t0 * z

theorem fePow22523_eq (z : Fe) : fePow22523 z = z ^ (2 ^ 252 - 3) := by
  simp only [fePow22523, feSqN_eq]
  ring

/-- `fe_loose_invert` under `fe_invert` (`avb_curve25519.c:304-364`): the addition chain for
`z^(p - 2)`. -/
def feInvert (z : Fe) : Fe :=
  let t0 := z * z
  let t1 := feSqN t0 2
  let t1 := z * t1
  let t0 := t0 * t1
  let t2 := t0 * t0
  let t1 := t1 * t2
  let t2 := feSqN t1 5
  let t1 := t2 * t1
  let t2 := feSqN t1 10
  let t2 := t2 * t1
  let t3 := feSqN t2 20
  let t2 := t3 * t2
  let t2 := feSqN t2 10
  let t1 := t2 * t1
  let t2 := feSqN t1 50
  let t2 := t2 * t1
  let t3 := feSqN t2 100
  let t2 := t3 * t2
  let t2 := feSqN t2 50
  let t1 := t2 * t1
  let t1 := feSqN t1 5
  t1 * t0

theorem feInvert_eq_pow (z : Fe) : feInvert z = z ^ (p25519 - 2) := by
  simp only [feInvert, feSqN_eq, p25519]
  ring

/-- `fe_invert` is the field inverse (`0` at `0`), by Fermat's little theorem. -/
theorem feInvert_eq (z : Fe) : feInvert z = z⁻¹ := by
  rw [feInvert_eq_pow]
  rcases eq_or_ne z 0 with rfl | hz
  · rw [zero_pow (by rw [p25519]; omega), inv_zero]
  · refine (eq_inv_of_mul_eq_one_left ?_)
    rw [← pow_succ, show p25519 - 2 + 1 = p25519 - 1 by rw [p25519]; omega]
    exact ZMod.pow_card_sub_one_eq_one hz

/-- `fe_loose_invert`, and so `fe_invert`, raises to `p - 2`: the inverse of a nonzero element
and `0` at `0`. `fe_pow22523` raises to `(p - 5) / 8`, which is `2^252 - 3`. -/
theorem feInvert_fePow22523_spec (z : Fe) :
    feInvert z = z ^ (p25519 - 2) ∧ (z ≠ 0 → z * feInvert z = 1) ∧ feInvert 0 = 0 ∧
      fePow22523 z = z ^ ((p25519 - 5) / 8) ∧ (p25519 - 5) / 8 = 2 ^ 252 - 3 := by
  have hexp : (p25519 - 5) / 8 = 2 ^ 252 - 3 := by norm_num [p25519]
  exact ⟨feInvert_eq_pow z, fun hz => by rw [feInvert_eq, mul_inv_cancel₀ hz],
    by rw [feInvert_eq, inv_zero], by rw [fePow22523_eq, hexp], hexp⟩

/-! ## The curve constants -/

/-- `d` of `curve25519_tables_32.h`. Modelled from the spec: `-121665 / 121666`, written as
its canonical representative (`d_eq_div`). -/
def d : Fe := 37095705934669439343138083508754565189542113879843219016388785533085940283555

/-- `d2` of `curve25519_tables_32.h`. Modelled from the spec: `2 d`. -/
def d2 : Fe := 2 * d

/-- `sqrtm1` of `curve25519_tables_32.h`. Modelled from the spec: the square root
`2^((p-1)/4)` of `-1`. -/
def sqrtm1 : Fe := 19681161376707505956807079304988542015446066515923890162744021073123829784752

/-- A natural number `n ≡ -1 (mod p)` is `-1` in the field. -/
private theorem natCast_eq_neg_one {n : ℕ} (h : n % p25519 = p25519 - 1) : (n : Fe) = -1 := by
  rw [← ZMod.natCast_mod, h, Nat.cast_sub p25519_prime.one_le, ZMod.natCast_self, zero_sub,
    Nat.cast_one]

/-- A power of a natural number, computed by `powMod`. -/
private theorem natCast_pow_eq_powMod (b e : ℕ) (he : e < 2 ^ 256) :
    (b : Fe) ^ e = (powMod p25519 256 b e : ℕ) := by
  rw [powMod_eq _ _ _ _ he, ZMod.natCast_mod, Nat.cast_pow]

theorem d_eq : d = (37095705934669439343138083508754565189542113879843219016388785533085940283555 : ℕ) :=
  (Nat.cast_ofNat).symm

theorem d_eq_div : d = -121665 / 121666 := by
  have h121666 : (121666 : Fe) ≠ 0 := by
    rw [show (121666 : Fe) = (121666 : ℕ) by norm_num, ne_eq, ZMod.natCast_zmod_eq_zero_iff_dvd,
      Nat.dvd_iff_mod_eq_zero]
    decide
  rw [eq_div_iff h121666, ← sub_eq_zero, sub_neg_eq_add, d_eq,
    show (121666 : Fe) = (121666 : ℕ) by norm_num, show (121665 : Fe) = (121665 : ℕ) by norm_num,
    ← Nat.cast_mul, ← Nat.cast_add, ZMod.natCast_zmod_eq_zero_iff_dvd, Nat.dvd_iff_mod_eq_zero]
  decide

theorem sqrtm1_mul_self : sqrtm1 * sqrtm1 = -1 := by
  rw [sqrtm1, show (19681161376707505956807079304988542015446066515923890162744021073123829784752 : Fe) =
      (19681161376707505956807079304988542015446066515923890162744021073123829784752 : ℕ) by norm_num,
    ← Nat.cast_mul]
  exact natCast_eq_neg_one (by decide)

set_option maxRecDepth 8000 in
/-- Euler's criterion at `d`: `d^((p-1)/2) = -1`. -/
theorem d_pow_half : d ^ (p25519 / 2) = -1 := by
  rw [d_eq, natCast_pow_eq_powMod _ _ (by decide)]
  exact natCast_eq_neg_one (by decide)

/-- `d` is not a square. -/
theorem d_nonsquare (r : Fe) : r * r ≠ d := by
  have hd := d_pow_half
  intro h
  have hr : r ≠ 0 := by
    rintro rfl
    rw [mul_zero] at h
    rw [← h, zero_pow (by decide)] at hd
    exact zero_ne_one (neg_eq_zero.mp hd.symm).symm
  rw [← h, ← sq, ← pow_mul, show 2 * (p25519 / 2) = p25519 - 1 by rw [p25519]; omega,
    ZMod.pow_card_sub_one_eq_one hr] at hd
  exact absurd hd (by decide)

theorem two_ne_zero' : (2 : Fe) ≠ 0 := by decide

/-- The Ed25519 curve `-x^2 + y^2 = 1 + d x^2 y^2` over `GF(p)`. -/
def ed25519 : EdCurve Fe where
  d := d
  i := sqrtm1
  i_mul_i := sqrtm1_mul_self
  d_nonsquare := d_nonsquare
  two_ne_zero := two_ne_zero'

@[simp] theorem ed25519_d : ed25519.d = d := rfl

/-- The Ed25519 base point `B = (x, 4/5)` with `x` even, whose multiples the tables of
`curve25519_tables_32.h` (not among the sources) hold. -/
def basePoint : ed25519.Point :=
  ⟨15112221349535400772501151409588531511454012693041857206046113283949847762202,
    46316835694926478169428394003475163141307993866256225615783033603165251855960, by decide⟩


end AvbCurve25519
