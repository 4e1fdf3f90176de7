import AvbCurve25519.Ge.Formulas

/-!
# Point decoding and encoding

`x25519_ge_frombytes_vartime` (`avb_curve25519.c:481-519`) reads `y` from 32 bytes with
bit 255 cleared and takes bit 255 as the sign of `x`. With `u = y^2 - 1` and `v = d y^2 + 1`
it computes the candidate root `u (u v)^((p-5)/8)` of `v x^2 = u`, multiplies it by
`sqrt(-1)` when its square is `-u / v`, and fails when it is neither. `x25519_ge_tobytes` and
`ge_p3_tobytes` (`avb_curve25519.c:457-479`) write the canonical `y` with the parity of `x`
in bit 255.

`x25519GeFrombytesVartime_spec` shows that decoding succeeds exactly for the `y` on the
curve and returns the point with the requested sign whenever the root is not zero.
`geP3Tobytes_frombytes_iff` shows that encoding a decoded point gives back the input exactly
when the input is canonical: decoding also accepts `y ≥ p` and `x = 0` with the sign bit set.
-/

namespace AvbCurve25519

open EdCurve

/-- The root computation of `x25519_ge_frombytes_vartime` (`avb_curve25519.c:488-510`): a root
`x` of `v x^2 = u`, or `none` where the code returns `0`. -/
def geFrombytesRoot (Y : Fe) : Option Fe :=
  let Z : Fe := 1
  let w := Y * Y
  let vxx := w * d
  let v := w - Z
  let u := v
  let v := vxx + Z
  let w := u * v
  let X := fePow22523 w
  let X := X * u
  let vxx := X * X
  let vxx := vxx * v
  let check := vxx - u
  if feIsnonzero check then
    let check := vxx + u
    if feIsnonzero check then none else some (X * sqrtm1)
  else some X

/-- `x25519_ge_frombytes_vartime` (`avb_curve25519.c:481-519`): `none` where the code returns
`0`; otherwise the root with its sign fixed and `T = X Y`. -/
def x25519GeFrombytesVartime (s : List UInt8) : Option GeP3 :=
  let Y := feFrombytes s
  (geFrombytesRoot Y).map fun X =>
    let X := if feIsnegative X ≠ (s.getD 31 0).toNat >>> 7 then -X else X
    ⟨X, Y, 1, X * Y⟩

/-- `x25519_ge_tobytes` (`avb_curve25519.c:457-466`). -/
def x25519GeTobytes (h : GeP2) : List UInt8 :=
  let recip := feInvert h.Z
  let x := h.X * recip
  let y := h.Y * recip
  let s := feTobytes y
  s.set 31 (s.getD 31 0 ^^^ UInt8.ofNat (feIsnegative x <<< 7))

/-- `ge_p3_tobytes` (`avb_curve25519.c:468-479`): the body of `x25519_ge_tobytes` on the `X`,
`Y` and `Z` of a `ge_p3`. -/
def geP3Tobytes (h : GeP3) : List UInt8 := x25519GeTobytes (geP3ToP2 h)

@[simp] theorem length_geP3Tobytes (h : GeP3) : (geP3Tobytes h).length = 32 := by
  simp [geP3Tobytes, x25519GeTobytes]

/-! ## The root -/

section Root

variable (Y : Fe)

/-- `v = d y^2 + 1` never vanishes: `-1 / d` is not a square. -/
theorem v_ne_zero : Y * Y * d + 1 ≠ 0 := by
  intro h
  have hY : Y ≠ 0 := by rintro rfl; simp at h
  apply d_nonsquare (sqrtm1 / Y)
  rw [div_mul_div_comm, sqrtm1_mul_self, div_eq_iff (mul_ne_zero hY hY)]
  linear_combination -h

/-- The curve equation at `y` is `v x^2 = u`. -/
theorem curve_iff (x : Fe) :
    -x ^ 2 + Y ^ 2 = 1 + d * x ^ 2 * Y ^ 2 ↔ x * x * (Y * Y * d + 1) = Y * Y - 1 := by
  constructor <;> intro h <;> linear_combination -h

/-- The square of the candidate root, times `v`, is `u (u v)^((p-1)/4)`. -/
theorem candidate_sq (u v : Fe) :
    fePow22523 (u * v) * u * (fePow22523 (u * v) * u) * v = u * (u * v) ^ ((p25519 - 1) / 4) := by
  rw [fePow22523_eq, show (p25519 - 1) / 4 = 2 * (2 ^ 252 - 3) + 1 by rw [p25519]; omega]
  ring

/-- Where `v x^2 = u` has a root, `(u v)^((p-1)/4)` is `±1` or `u = 0`. -/
theorem fourth_root_of_root {u v x : Fe} (hv : v ≠ 0) (hx : x * x * v = u) :
    u * (u * v) ^ ((p25519 - 1) / 4) = u ∨ u * (u * v) ^ ((p25519 - 1) / 4) = -u := by
  rcases eq_or_ne u 0 with rfl | hu
  · simp
  have hvx : v * x ≠ 0 := mul_ne_zero hv (by rintro rfl; simp [← hx] at hu)
  have he : (u * v) ^ ((p25519 - 1) / 4) * (u * v) ^ ((p25519 - 1) / 4) = 1 := by
    rw [← pow_add, ← hx, show x * x * v * v = (v * x) ^ 2 by ring, ← pow_mul,
      show 2 * ((p25519 - 1) / 4 + (p25519 - 1) / 4) = p25519 - 1 by rw [p25519]; omega]
    exact ZMod.pow_card_sub_one_eq_one hvx
  rcases mul_self_eq_one_iff.mp he with h | h <;> rw [h]
  · exact Or.inl (mul_one u)
  · exact Or.inr (mul_neg_one u)

/-- `geFrombytesRoot` finds a root of `v x^2 = u` exactly when there is one. -/
theorem geFrombytesRoot_spec :
    ((geFrombytesRoot Y).isSome = true ↔ ∃ x, x * x * (Y * Y * d + 1) = Y * Y - 1) ∧
      ∀ X, geFrombytesRoot Y = some X → X * X * (Y * Y * d + 1) = Y * Y - 1 := by
  simp only [geFrombytesRoot]
  set u := Y * Y - 1
  set v := Y * Y * d + 1
  set X := fePow22523 (u * v) * u
  have hsq : X * X * v = u * (u * v) ^ ((p25519 - 1) / 4) := candidate_sq u v
  split_ifs with h1 h2
  · rw [feIsnonzero_iff] at h1 h2
    refine ⟨⟨fun h => absurd h (by simp), fun ⟨x, hx⟩ => ?_⟩, fun _ h => absurd h (by simp)⟩
    rcases fourth_root_of_root (v_ne_zero Y) hx with h | h
    · exact (h1 (by rw [hsq, h, sub_self])).elim
    · exact (h2 (by rw [hsq, h, neg_add_cancel])).elim
  · rw [feIsnonzero_iff, not_not] at h2
    have hs : X * sqrtm1 * (X * sqrtm1) * v = u := by
      linear_combination (sqrtm1 * sqrtm1) * eq_neg_of_add_eq_zero_left h2 - u * sqrtm1_mul_self
    exact ⟨⟨fun _ => ⟨_, hs⟩, fun _ => rfl⟩, fun _ h => Option.some_inj.mp h ▸ hs⟩
  · rw [feIsnonzero_iff, not_not] at h1
    have hs : X * X * v = u := sub_eq_zero.mp h1
    exact ⟨⟨fun _ => ⟨_, hs⟩, fun _ => rfl⟩, fun _ h => Option.some_inj.mp h ▸ hs⟩

/-- If some nonzero `x` is a root, every root is nonzero: `v` does not vanish. -/
theorem root_ne_zero {x X : Fe} (hx : x ≠ 0) (hxr : x * x * (Y * Y * d + 1) = Y * Y - 1)
    (hXr : X * X * (Y * Y * d + 1) = Y * Y - 1) : X ≠ 0 := by
  rintro rfl
  have h0 : x * x * (Y * Y * d + 1) = 0 := by rw [hxr, ← hXr]; ring
  simp [v_ne_zero Y, hx] at h0

/-- Where `y^2 = 1`, `u = 0` and the root found is `0`. -/
theorem geFrombytesRoot_of_mul_self_eq_one (hY : Y * Y = 1) : geFrombytesRoot Y = some 0 := by
  have h0 : ¬feIsnonzero 0 = true := by rw [feIsnonzero_iff]; exact fun h => h rfl
  simp [geFrombytesRoot, hY, h0]

end Root

/-! ## The sign -/

/-- Negation flips the parity of a nonzero element, as `p` is odd. -/
theorem val_neg_mod_two {X : Fe} (hX : X ≠ 0) : (-X).val % 2 = 1 - X.val % 2 := by
  have hlt := ZMod.val_lt X
  have hodd : p25519 % 2 = 1 := by rw [p25519_eq]
  rw [ZMod.neg_val, if_neg hX]
  omega

/-- The sign fix of `x25519_ge_frombytes_vartime` gives a nonzero root the requested parity. -/
theorem signFix_val_mod_two {X : Fe} (hX : X ≠ 0) {b : ℕ} (hb : b < 2) :
    (if feIsnegative X ≠ b then -X else X).val % 2 = b := by
  rw [feIsnegative_eq]
  split_ifs with h
  · rw [val_neg_mod_two hX]; omega
  · omega

/-- `s[31] >> 7` is bit 255 of a 32-byte string. -/
theorem signBit_eq {s : List UInt8} (hs : s.length = 32) :
    (s.getD 31 0).toNat >>> 7 = leValue s / 2 ^ 255 := by
  rw [Nat.shiftRight_eq_div_pow, ← leValue_div_top hs, Nat.div_div_eq_div_mul]
  norm_num

/-- A decoded point is `(x, y, 1, x y)` for a root `x` at the `y` of the input, and a
nonzero `x` has the parity of bit 255. -/
theorem frombytes_some {s : List UInt8} (hs : s.length = 32) {h : GeP3}
    (hh : x25519GeFrombytesVartime s = some h) :
    let y : Fe := (leValue s % 2 ^ 255 : ℕ)
    h = ⟨h.X, y, 1, h.X * y⟩ ∧ h.X * h.X * (y * y * d + 1) = y * y - 1 ∧
      (h.X ≠ 0 → h.X.val % 2 = leValue s / 2 ^ 255) := by
  intro y
  have hlt : leValue s / 2 ^ 255 < 2 := by
    have := leValue_lt s; rw [hs] at this; omega
  rw [x25519GeFrombytesVartime, feFrombytes_eq s hs, signBit_eq hs] at hh
  obtain ⟨X, hX, rfl⟩ := Option.map_eq_some'.mp hh
  have hr := (geFrombytesRoot_spec y).2 X hX
  refine ⟨rfl, ?_, fun h0 => signFix_val_mod_two (fun hX0 => h0 ?_) hlt⟩
  · split_ifs <;> linear_combination hr
  · simp [hX0]

/-- Decoding accepts exactly the `y` at which the curve has a point. It returns the valid
point `(x, y, 1, x y)` for such an `x`; where the root is not zero, the one whose parity is
bit 255 of the input. -/
theorem x25519GeFrombytesVartime_spec (s : Bytes 32) :
    let y : Fe := (leValue s.toList % 2 ^ 255 : ℕ)
    ((x25519GeFrombytesVartime s.toList).isSome = true ↔
        ∃ x : Fe, -x ^ 2 + y ^ 2 = 1 + d * x ^ 2 * y ^ 2) ∧
    ∀ h, x25519GeFrombytesVartime s.toList = some h →
      h = ⟨h.X, y, 1, h.X * y⟩ ∧ -h.X ^ 2 + y ^ 2 = 1 + d * h.X ^ 2 * y ^ 2 ∧ h.Valid ∧
      ((∃ x : Fe, x ≠ 0 ∧ -x ^ 2 + y ^ 2 = 1 + d * x ^ 2 * y ^ 2) →
        h.X.val % 2 = leValue s.toList / 2 ^ 255) := by
  intro y
  have hs := s.toList_length
  simp only [curve_iff]
  constructor
  · rw [x25519GeFrombytesVartime, feFrombytes_eq _ hs, Option.isSome_map']
    exact (geFrombytesRoot_spec y).1
  · intro h hh
    obtain ⟨he, hr, hsign⟩ := frombytes_some hs hh
    refine ⟨he, hr, ?_, fun ⟨x, hx, hxr⟩ => hsign (root_ne_zero y hx hxr hr)⟩
    rw [he]
    exact (GeP3.rep_affine ⟨h.X, y, (curve_iff y h.X).2 hr⟩).valid

/-! ## Encoding -/

/-- The encoding of a point: the canonical `y`, with the parity of `x` in bit 255. -/
def encodePoint (P : ed25519.Point) : List UInt8 :=
  leBytes 32 (P.y.val + 2 ^ 255 * (P.x.val % 2))

@[simp] theorem length_encodePoint (P : ed25519.Point) : (encodePoint P).length = 32 :=
  length_leBytes _ _

/-- Xoring `b << 7` into a byte below `128` sets its bit 7 to `b`. -/
theorem toNat_xor_signBit {a : UInt8} (ha : a.toNat < 128) {b : ℕ} (hb : b < 2) :
    (a ^^^ UInt8.ofNat (b <<< 7)).toNat = a.toNat + 128 * b := by
  have key : ∀ n < 128, n ^^^ 128 = n + 128 := by decide
  interval_cases b
  · exact (BitVec.toNat_xor _ _).trans (Nat.xor_zero _)
  · exact (BitVec.toNat_xor _ _).trans (key _ ha)

/-- `fe_tobytes(s, y)` followed by `s[31] ^= fe_isnegative(x) << 7` writes the canonical `y`
with the parity of `x` in bit 255. -/
theorem feTobytes_xor_sign (x y : Fe) :
    (feTobytes y).set 31 ((feTobytes y).getD 31 0 ^^^ UInt8.ofNat (feIsnegative x <<< 7)) =
      leBytes 32 (y.val + 2 ^ 255 * (x.val % 2)) := by
  have hy := val_lt_two_pow y
  have htop : ((feTobytes y).getD 31 0).toNat = y.val / 256 ^ 31 := by
    rw [← leValue_div_top (length_feTobytes y), leValue_feTobytes]
  have hb : x.val % 2 < 2 := Nat.mod_lt _ two_pos
  have hxor : ((feTobytes y).getD 31 0 ^^^ UInt8.ofNat (feIsnegative x <<< 7)).toNat =
      y.val / 256 ^ 31 + 128 * (x.val % 2) := by
    rw [toNat_xor_signBit (by omega) (by rw [feIsnegative_eq]; exact hb), feIsnegative_eq, htop]
  have hset := leValue_set (feTobytes y) (show 31 < (feTobytes y).length by simp)
    ((feTobytes y).getD 31 0 ^^^ UInt8.ofNat (feIsnegative x <<< 7))
  rw [hxor, htop, leValue_feTobytes] at hset
  apply eq_of_leValue_eq (by simp)
  rw [leValue_leBytes, Nat.mod_eq_of_lt (by omega)]
  omega

variable {P : ed25519.Point}

/-- `x25519_ge_tobytes` of any representation of `P` is the encoding of `P`. -/
theorem GeP2.Rep.tobytes {p : GeP2} (h : p.Rep P) : x25519GeTobytes p = encodePoint P := by
  have hx : p.X * feInvert p.Z = P.x := by rw [feInvert_eq, h.X_eq, mul_inv_cancel_right₀ h.Z_ne]
  have hy : p.Y * feInvert p.Z = P.y := by rw [feInvert_eq, h.Y_eq, mul_inv_cancel_right₀ h.Z_ne]
  simp only [x25519GeTobytes, hx, hy]
  exact feTobytes_xor_sign _ _

theorem GeP3.Rep.tobytes {p : GeP3} (h : p.Rep P) : geP3Tobytes p = encodePoint P :=
  h.toP2.tobytes

/-! ## Round trips -/

/-- Decoding the encoding of a point returns its affine extended form `(x, y, 1, x y)`. -/
theorem frombytes_encodePoint_eq (P : ed25519.Point) :
    x25519GeFrombytesVartime (encodePoint P) = some ⟨P.x, P.y, 1, P.x * P.y⟩ := by
  have hs : (encodePoint P).length = 32 := length_leBytes _ _
  have hlt := val_lt_two_pow P.y
  have hV : leValue (encodePoint P) = P.y.val + 2 ^ 255 * (P.x.val % 2) := by
    rw [encodePoint, leValue_leBytes, Nat.mod_eq_of_lt (by omega)]
  have hy : ((leValue (encodePoint P) % 2 ^ 255 : ℕ) : Fe) = P.y := by
    rw [hV, Nat.add_mul_mod_self_left, Nat.mod_eq_of_lt hlt, ZMod.natCast_zmod_val]
  have hsign : leValue (encodePoint P) / 2 ^ 255 = P.x.val % 2 := by omega
  have hPx : P.x * P.x * (P.y * P.y * d + 1) = P.y * P.y - 1 := (curve_iff P.y P.x).1 P.on_curve
  obtain ⟨h, hh⟩ : ∃ h, x25519GeFrombytesVartime (encodePoint P) = some h := by
    rw [← Option.isSome_iff_exists, x25519GeFrombytesVartime, feFrombytes_eq _ hs,
      Option.isSome_map', hy]
    exact (geFrombytesRoot_spec P.y).1.2 ⟨_, hPx⟩
  obtain ⟨he, hr, hpar⟩ := frombytes_some hs hh
  rw [hy, hsign] at *
  have hX : h.X = P.x := by
    rcases mul_self_eq_mul_self_iff.mp (mul_right_cancel₀ (v_ne_zero P.y) (hr.trans hPx.symm))
      with hX | hX
    · exact hX
    rcases eq_or_ne P.x 0 with h0 | h0
    · rw [hX, h0, neg_zero]
    have := val_neg_mod_two h0
    have := hpar (by rw [hX]; exact neg_ne_zero.mpr h0)
    rw [hX] at this
    omega
  rw [hh, he, hX]

/-- Decoding what `ge_p3_tobytes` or `x25519_ge_tobytes` writes for any representation of a
point gives back the point, in its affine extended form. -/
theorem frombytes_encodePoint (p : GeP3) (q : GeP2) (P : ed25519.Point) (hp : p.Rep P)
    (hq : q.Rep P) :
    x25519GeFrombytesVartime (geP3Tobytes p) = some ⟨P.x, P.y, 1, P.x * P.y⟩ ∧
      x25519GeFrombytesVartime (x25519GeTobytes q) = some ⟨P.x, P.y, 1, P.x * P.y⟩ ∧
      (⟨P.x, P.y, 1, P.x * P.y⟩ : GeP3).Is P := by
  rw [hp.tobytes, hq.tobytes]
  exact ⟨frombytes_encodePoint_eq P, frombytes_encodePoint_eq P, (GeP3.rep_affine P).is⟩

/-- The round trip at the base point, written from its affine form. -/
theorem frombytes_encodePoint_basePoint :
    (⟨basePoint.x, basePoint.y, 1, basePoint.x * basePoint.y⟩ : GeP3).Rep basePoint ∧
      (geP3ToP2 ⟨basePoint.x, basePoint.y, 1, basePoint.x * basePoint.y⟩).Rep basePoint ∧
      x25519GeFrombytesVartime (geP3Tobytes ⟨basePoint.x, basePoint.y, 1,
        basePoint.x * basePoint.y⟩) = some ⟨basePoint.x, basePoint.y, 1, basePoint.x * basePoint.y⟩ :=
  have hp := GeP3.rep_affine basePoint
  ⟨hp, hp.toP2, (frombytes_encodePoint _ _ basePoint hp hp.toP2).1⟩

/-- Where `y^2 = 1` the only root is `0`, and decoding returns `(0, y, 1, 0)` whatever the
sign bit. -/
theorem frombytes_of_sq_eq_one {s : List UInt8} (hs : s.length = 32)
    (hy : ((leValue s % 2 ^ 255 : ℕ) : Fe) * ((leValue s % 2 ^ 255 : ℕ) : Fe) = 1) :
    x25519GeFrombytesVartime s = some ⟨0, (leValue s % 2 ^ 255 : ℕ), 1, 0⟩ := by
  rw [x25519GeFrombytesVartime, feFrombytes_eq s hs, geFrombytesRoot_of_mul_self_eq_one _ hy]
  simp only [Option.map_some', neg_zero, ite_self, zero_mul]

/-- Every 32-byte encoding of `y = 1` decodes to the identity. -/
theorem frombytes_identity {v : ℕ} (hv : ((v % 256 ^ 32 % 2 ^ 255 : ℕ) : Fe) = 1) :
    x25519GeFrombytesVartime (leBytes 32 v) = some geP30 := by
  rw [frombytes_of_sq_eq_one (length_leBytes _ _) (by rw [leValue_leBytes, hv, one_mul]),
    leValue_leBytes, hv]
  rfl

theorem geP3Tobytes_geP30 : geP3Tobytes geP30 = leBytes 32 1 := by
  rw [GeP3.rep_geP30.tobytes, encodePoint, y_zero, x_zero, ZMod.val_one, ZMod.val_zero,
    Nat.zero_mod, mul_zero, add_zero]

/-- Re-encoding a decoded point gives back the input exactly when its `y` was canonical and
its sign bit is not set on `x = 0`. -/
theorem geP3Tobytes_frombytes_iff (s : Bytes 32) (h : GeP3)
    (hh : x25519GeFrombytesVartime s.toList = some h) :
    (geP3Tobytes h = s.toList ↔
        leValue s.toList % 2 ^ 255 < p25519 ∧ ¬(h.X = 0 ∧ leValue s.toList / 2 ^ 255 = 1)) ∧
    (x25519GeTobytes (geP3ToP2 h) = s.toList ↔
        leValue s.toList % 2 ^ 255 < p25519 ∧ ¬(h.X = 0 ∧ leValue s.toList / 2 ^ 255 = 1)) := by
  have hs := s.toList_length
  obtain ⟨he, hr, hsign⟩ := frombytes_some hs hh
  have hV := leValue_lt s.toList
  rw [hs] at hV
  have henc : geP3Tobytes h =
      leBytes 32 (((leValue s.toList % 2 ^ 255 : ℕ) : Fe).val + 2 ^ 255 * (h.X.val % 2)) := by
    rw [he]
    exact (GeP3.rep_affine ⟨h.X, _, (curve_iff _ h.X).2 hr⟩).tobytes
  suffices H : geP3Tobytes h = s.toList ↔
      leValue s.toList % 2 ^ 255 < p25519 ∧ ¬(h.X = 0 ∧ leValue s.toList / 2 ^ 255 = 1) from ⟨H, H⟩
  have hlt := val_lt_two_pow ((leValue s.toList % 2 ^ 255 : ℕ) : Fe)
  have hiff : geP3Tobytes h = s.toList ↔
      ((leValue s.toList % 2 ^ 255 : ℕ) : Fe).val + 2 ^ 255 * (h.X.val % 2) = leValue s.toList := by
    rw [henc]
    exact leBytes_eq_iff hs (by omega)
  have hmod : leValue s.toList % 2 ^ 255 % p25519 = leValue s.toList % 2 ^ 255 ↔
      leValue s.toList % 2 ^ 255 < p25519 := Nat.mod_eq_iff_lt (Fact.out : p25519.Prime).ne_zero
  have hle := Nat.mod_le (leValue s.toList % 2 ^ 255) p25519
  rw [hiff, ZMod.val_natCast, ← hmod]
  rcases eq_or_ne h.X 0 with h0 | h0
  · simp only [h0, ZMod.val_zero, true_and]
    omega
  · simp only [hsign h0, h0, false_and, not_false_eq_true, and_true]
    omega

/-- Decoding accepts the two non-canonical encodings `2^255 + 1` (the sign bit set on `x = 0`)
and `p + 1` (`y ≥ p`) of the identity, whose encoding is `1`. -/
theorem frombytes_accepts_noncanonical :
    x25519GeFrombytesVartime (leBytes 32 (2 ^ 255 + 1)) = some geP30 ∧
      x25519GeFrombytesVartime (leBytes 32 (p25519 + 1)) = some geP30 ∧
      geP3Tobytes geP30 = leBytes 32 1 ∧
      leBytes 32 1 ≠ leBytes 32 (2 ^ 255 + 1) ∧ leBytes 32 1 ≠ leBytes 32 (p25519 + 1) := by
  have hp : (p25519 + 1) % 256 ^ 32 % 2 ^ 255 = p25519 + 1 := by rw [p25519]; norm_num
  refine ⟨frombytes_identity (by norm_num), frombytes_identity ?_, geP3Tobytes_geP30, ?_, ?_⟩
  · rw [hp, Nat.cast_add, ZMod.natCast_self, zero_add, Nat.cast_one]
  all_goals
    intro heq
    have := congrArg leValue heq
    rw [leValue_leBytes, leValue_leBytes] at this
    norm_num [p25519] at this

/-- The round trip at the encoding of the base point, which is canonical. -/
theorem geP3Tobytes_frombytes_basePoint :
    x25519GeFrombytesVartime (encodePoint basePoint) =
        some ⟨basePoint.x, basePoint.y, 1, basePoint.x * basePoint.y⟩ ∧
      (geP3Tobytes ⟨basePoint.x, basePoint.y, 1, basePoint.x * basePoint.y⟩ =
          encodePoint basePoint ↔
        leValue (encodePoint basePoint) % 2 ^ 255 < p25519 ∧
          ¬(basePoint.x = 0 ∧ leValue (encodePoint basePoint) / 2 ^ 255 = 1)) :=
  have h := frombytes_encodePoint_eq basePoint
  ⟨h, (geP3Tobytes_frombytes_iff ⟨encodePoint basePoint, length_encodePoint _⟩ _ h).1⟩

end AvbCurve25519
