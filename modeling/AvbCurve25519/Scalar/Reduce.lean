import AvbCurve25519.Scalar.Normalize

/-!
# `x25519_sc_reduce`

`x25519_sc_reduce` (`avb_curve25519.c:920-1261`) reads a 64-byte little-endian integer
`S < 2^512` into 24 limbs, folds the twelve high limbs down with `2^252 ≡ -(l - 2^252)`,
normalizes and packs the result into `s[0..32)`, and leaves `s[32..64)` as it was.
`x25519ScReduce_eq` shows that it writes `S mod l`; `x25519ScReduce_safe` that no step
overflows `int64_t`, shifts a negative value left, or hands `int64_lshift21` a carry of
`2^42` or more.
-/

namespace AvbCurve25519

open LimbOp

/-- The limbs `s0 … s23` of `x25519_sc_reduce` (`avb_curve25519.c:931-954`). -/
def scReduceLoad (s : List UInt8) : List ℤ :=
  [(2097151 &&& load3 s 0 : ℕ), (2097151 &&& (load4 s 2 >>> 5) : ℕ),
    (2097151 &&& (load3 s 5 >>> 2) : ℕ), (2097151 &&& (load4 s 7 >>> 7) : ℕ),
    (2097151 &&& (load4 s 10 >>> 4) : ℕ), (2097151 &&& (load3 s 13 >>> 1) : ℕ),
    (2097151 &&& (load4 s 15 >>> 6) : ℕ), (2097151 &&& (load3 s 18 >>> 3) : ℕ),
    (2097151 &&& load3 s 21 : ℕ), (2097151 &&& (load4 s 23 >>> 5) : ℕ),
    (2097151 &&& (load3 s 26 >>> 2) : ℕ), (2097151 &&& (load4 s 28 >>> 7) : ℕ),
    (2097151 &&& (load4 s 31 >>> 4) : ℕ), (2097151 &&& (load3 s 34 >>> 1) : ℕ),
    (2097151 &&& (load4 s 36 >>> 6) : ℕ), (2097151 &&& (load3 s 39 >>> 3) : ℕ),
    (2097151 &&& load3 s 42 : ℕ), (2097151 &&& (load4 s 44 >>> 5) : ℕ),
    (2097151 &&& (load3 s 47 >>> 2) : ℕ), (2097151 &&& (load4 s 49 >>> 7) : ℕ),
    (2097151 &&& (load4 s 52 >>> 4) : ℕ), (2097151 &&& (load3 s 55 >>> 1) : ℕ),
    (2097151 &&& (load4 s 57 >>> 6) : ℕ), (load4 s 60 >>> 3 : ℕ)]

/-- The blocks of `x25519_sc_reduce` before its last two passes
(`avb_curve25519.c:973-1141`). -/
def scReduceHead : List LimbOp :=
  [fold 23, fold 22, fold 21, fold 20, fold 19, fold 18,
    carryRound 6, carryRound 8, carryRound 10, carryRound 12, carryRound 14, carryRound 16,
    carryRound 7, carryRound 9, carryRound 11, carryRound 13, carryRound 15,
    fold 17, fold 16, fold 15, fold 14, fold 13, fold 12,
    carryRound 0, carryRound 2, carryRound 4, carryRound 6, carryRound 8, carryRound 10,
    carryRound 1, carryRound 3, carryRound 5, carryRound 7, carryRound 9, carryRound 11]

/-- All the blocks of `x25519_sc_reduce`, in order. -/
def scReduceOps : List LimbOp := scReduceHead ++ scTailOps

/-- `x25519_sc_reduce` (`avb_curve25519.c:920-1261`): `s[0..32)` is overwritten with the
packed limbs, `s[32..64)` is left as it was. -/
def x25519ScReduce (s : Bytes 64) : Bytes 64 :=
  ⟨scPack (runLimbs scReduceOps (scReduceLoad s.toList)) ++ s.toList.drop 32, by simp [scPack]⟩

/-! ## Loading -/

/-- The radix-`2^21` digits of `V`: `n` digits of 21 bits and the rest on top. -/
def digits21 : ℕ → ℕ → List ℤ
  | 0, V => [(V : ℤ)]
  | n + 1, V => ((V % 2 ^ 21 : ℕ) : ℤ) :: digits21 n (V / 2 ^ 21)

theorem limbValue_digits21 (n V : ℕ) : limbValue (digits21 n V) = V := by
  induction n generalizing V with
  | zero => simp [digits21]
  | succ n ih =>
    rw [digits21, limbValue_cons, ih]
    have := Nat.mod_add_div V (2 ^ 21)
    omega

private theorem mask_shiftRight_mod (x w r : ℕ) (hr : r + 21 ≤ w) :
    2097151 &&& ((x % 2 ^ w) >>> r) = x / 2 ^ r % 2 ^ 21 := by
  rw [Nat.shiftRight_eq_div_pow, Nat.land_comm, show 2097151 = 2 ^ 21 - 1 from rfl,
    Nat.and_pow_two_sub_one_eq_mod, show 2 ^ w = 2 ^ r * 2 ^ (w - r) by
      rw [← pow_add]; congr 1; omega,
    Nat.mod_mul_right_div_self, Nat.mod_mod_of_dvd _ (pow_dvd_pow 2 (by omega))]

private theorem div_pow256_div (x o r : ℕ) : x / 256 ^ o / 2 ^ r = x / 2 ^ (8 * o + r) := by
  rw [Nat.div_div_eq_div_mul, show (256 : ℕ) ^ o = 2 ^ (8 * o) by rw [pow_mul]; rfl, ← pow_add]

/-- A masked 21-bit field of `load_3` is a radix-2 digit block of the input. -/
theorem mask_load3 (s : List UInt8) (o r : ℕ) (hr : r ≤ 3) :
    2097151 &&& (load3 s o >>> r) = leValue s / 2 ^ (8 * o + r) % 2 ^ 21 := by
  rw [load3_eq, mask_shiftRight_mod _ _ _ (by omega), div_pow256_div]

theorem mask_load4 (s : List UInt8) (o r : ℕ) (hr : r ≤ 11) :
    2097151 &&& (load4 s o >>> r) = leValue s / 2 ^ (8 * o + r) % 2 ^ 21 := by
  rw [load4_eq, mask_shiftRight_mod _ _ _ (by omega), div_pow256_div]

/-- The unmasked top limb: `load_4` of the last four bytes, shifted. -/
theorem load4_shiftRight_top {s : List UInt8} {o : ℕ} (h : leValue s < 2 ^ (8 * o + 32))
    (r : ℕ) : load4 s o >>> r = leValue s / 2 ^ (8 * o + r) := by
  rw [load4_eq, Nat.mod_eq_of_lt, Nat.shiftRight_eq_div_pow, div_pow256_div]
  rw [Nat.div_lt_iff_lt_mul (by positivity)]
  calc leValue s < 2 ^ (8 * o + 32) := h
    _ = 2 ^ 32 * 256 ^ o := by rw [pow_add, pow_mul, mul_comm]; rfl

/-- The 24 limbs are the radix-`2^21` digits of the input. -/
theorem scReduceLoad_eq {s : List UInt8} (hs : s.length = 64) :
    scReduceLoad s = digits21 23 (leValue s) := by
  have hV := leValue_lt s
  rw [hs] at hV
  have h0 := mask_load3 s 0 0 (by norm_num)
  have h8 := mask_load3 s 21 0 (by norm_num)
  have h16 := mask_load3 s 42 0 (by norm_num)
  simp only [Nat.shiftRight_zero] at h0 h8 h16
  simp only [scReduceLoad, digits21, h0, h8, h16,
    load4_shiftRight_top (show leValue s < 2 ^ (8 * 60 + 32) by norm_num at hV ⊢; exact hV),
    mask_load3 s _ _ (by norm_num : 1 ≤ 3),
    mask_load3 s _ _ (by norm_num : 2 ≤ 3), mask_load3 s _ _ (by norm_num : 3 ≤ 3),
    mask_load4 s _ _ (by norm_num : 4 ≤ 11), mask_load4 s _ _ (by norm_num : 5 ≤ 11),
    mask_load4 s _ _ (by norm_num : 6 ≤ 11), mask_load4 s _ _ (by norm_num : 7 ≤ 11),
    Nat.div_div_eq_div_mul, ← pow_add, Nat.reduceAdd, Nat.reduceMul, pow_zero, Nat.div_one]

/-- The intervals of `digits21 n V` when `V / 2^(21 n) ≤ B`. -/
def digitItvs : ℕ → ℤ → List Itv
  | 0, B => [⟨0, B⟩]
  | n + 1, B => ⟨0, 2097151⟩ :: digitItvs n B

theorem inItv_digits21 (n V : ℕ) {B : ℤ} (h : ((V / 2 ^ (21 * n) : ℕ) : ℤ) ≤ B) :
    InItv (digits21 n V) (digitItvs n B) := by
  induction n generalizing V with
  | zero => exact InItv.cons ⟨by positivity, by simpa using h⟩ ⟨rfl, fun _ => by simp [getAt, itvAt, Itv.Mem]⟩
  | succ n ih =>
    refine InItv.cons ⟨by positivity, ?_⟩ (ih _ ?_)
    · have := Nat.mod_lt V (show 0 < 2 ^ 21 by norm_num); norm_num at this ⊢; omega
    · rwa [Nat.div_div_eq_div_mul, ← pow_add, show 21 + 21 * n = 21 * (n + 1) by ring]

/-- Every 64-byte input passes the interval check of `x25519_sc_reduce`. -/
theorem scReduceHead_tailCheck : tailCheck scReduceHead (digitItvs 23 536870911) = true := by
  decide

theorem scReduceLoad_inItv {s : List UInt8} (hs : s.length = 64) :
    InItv (scReduceLoad s) (digitItvs 23 536870911) := by
  rw [scReduceLoad_eq hs]
  apply inItv_digits21
  have := leValue_lt s
  rw [hs] at this
  have : leValue s / 2 ^ 483 < 2 ^ 29 := by
    rw [Nat.div_lt_iff_lt_mul (by positivity)]; norm_num at this ⊢; omega
  norm_num at this ⊢; omega

/-- The limbs the reduction leaves, packed, are `S mod l`. -/
theorem scPack_scReduceOps {s : List UInt8} (hs : s.length = 64) :
    scPack (runLimbs scReduceOps (scReduceLoad s)) = leBytes 32 (leValue s % orderL) :=
  scPack_runLimbs_eq (scReduceLoad_inItv hs) rfl scReduceHead_tailCheck
    ((congrArg limbValue (scReduceLoad_eq hs)).trans (limbValue_digits21 _ _))

/-- `x25519_sc_reduce` writes `S mod l` over `s[0..32)` and keeps `s[32..64)`. -/
theorem x25519ScReduce_eq (s : Bytes 64) :
    (x25519ScReduce s).toList = leBytes 32 (leValue s.toList % orderL) ++ s.toList.drop 32 :=
  congrArg (· ++ s.toList.drop 32) (scPack_scReduceOps s.toList_length)

/-- Every 64-byte input gives a `ScSafe` run of `x25519_sc_reduce`. -/
theorem scReduceOps_scSafe (s : Bytes 64) : ScSafe scReduceOps (scReduceLoad s.toList) :=
  scSafe_of_tailCheck (scReduceLoad_inItv s.toList_length) rfl scReduceHead_tailCheck
    (by decide)

end AvbCurve25519
