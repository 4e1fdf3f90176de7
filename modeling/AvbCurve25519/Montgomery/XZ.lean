import Mathlib.AlgebraicGeometry.EllipticCurve.Group

/-!
# Montgomery curves and projective `u`-coordinates

The curve arithmetic under `x25519_scalar_mult_generic` (`avb_curve25519.c:1814-1896`). Its
comment cites the fiat-crypto proofs for the Montgomery curve `v^2 = u^3 + A u^2 + u`, which
are not among the sources; here the curve is Mathlib's Weierstrass curve with `a₂ = A` and
`a₄ = 1`, whose points form a group, and a pair `(X : Z)` of field elements represents the
`u`-coordinate of a point through `XZRep`. Over any field with `2 ≠ 0` and `A^2 ≠ 4`, the
doubling formula `XZRep.dbl` and the differential addition `XZRep.diffAdd` compute the
`u`-coordinates of `Q + Q` and of `Q + R` from those of `Q`, `R` and `R - Q`. Nothing here is
specific to `GF(2^255 - 19)`.
-/

namespace AvbCurve25519

open WeierstrassCurve WeierstrassCurve.Affine

variable {F : Type*} [Field F]

/-- The Montgomery curve `v^2 = u^3 + A u^2 + u`, as the Weierstrass curve with `a₂ = A`,
`a₄ = 1` and the other coefficients `0`. -/
def montgomery (A : F) : WeierstrassCurve.Affine F := ⟨0, A, 0, 1, 0⟩

variable {A : F}

/-- The `u`-coordinate of a point, and `0` at infinity. -/
def uCoord : (montgomery A).Point → F
  | .zero => 0
  | @Point.some _ _ _ x _ _ => x

@[simp] theorem uCoord_zero : uCoord (0 : (montgomery A).Point) = 0 := rfl

@[simp] theorem uCoord_some {x y : F} (h : (montgomery A).Nonsingular x y) :
    uCoord (Point.some h) = x := rfl

@[simp] theorem montgomery_negY (x y : F) : (montgomery A).negY x y = -y := by
  simp [negY, montgomery]

theorem montgomery_equation (x y : F) :
    (montgomery A).Equation x y ↔ y ^ 2 = x ^ 3 + A * x ^ 2 + x := by
  rw [equation_iff]; simp [montgomery]

theorem montgomery_Δ : (montgomery A).Δ = 16 * (A ^ 2 - 4) := by
  simp only [montgomery, WeierstrassCurve.Δ, WeierstrassCurve.b₂, WeierstrassCurve.b₄,
    WeierstrassCurve.b₆, WeierstrassCurve.b₈]
  ring

theorem uCoord_neg (Q : (montgomery A).Point) : uCoord (-Q) = uCoord Q := by
  rcases Q with _ | _ <;> rfl

/-- A point with `u = 0` is `0` or `(0, 0)`, which is its own negative. -/
theorem add_self_eq_zero_of_uCoord_eq_zero {Q : (montgomery A).Point} (hQ : uCoord Q = 0) :
    Q + Q = 0 := by
  rcases Q with _ | @⟨x, y, h⟩
  · rfl
  · obtain rfl : x = 0 := hQ
    obtain rfl : y = 0 := pow_eq_zero_iff two_ne_zero |>.mp (by
      simpa using (montgomery_equation 0 y).mp h.1)
    exact Point.add_self_of_Y_eq (by rw [montgomery_negY, neg_zero])

/-- Every multiple of a point with `u = 0` has `u = 0`. -/
theorem uCoord_nsmul_eq_zero {Q : (montgomery A).Point} (hQ : uCoord Q = 0) (n : ℕ) :
    uCoord (n • Q) = 0 := by
  have h : n • Q = 0 ∨ n • Q = Q := by
    induction n with
    | zero => exact Or.inl (zero_nsmul Q)
    | succ n ih =>
      rw [succ_nsmul]
      rcases ih with h | h <;> rw [h]
      · exact Or.inr (zero_add Q)
      · exact Or.inl (add_self_eq_zero_of_uCoord_eq_zero hQ)
  rcases h with h | h <;> rw [h]
  · rfl
  · exact hQ

/-! ## Affine `u`-coordinates -/

/-- The sum and the difference of two affine points with `u₁ ≠ u₂`:
`u(Q + R) · u(R - Q) · (u₁ - u₂)^2 = (u₁ u₂ - 1)^2`. -/
theorem uCoord_add_mul_sub {x1 y1 x2 y2 : F} (h1 : (montgomery A).Nonsingular x1 y1)
    (h2 : (montgomery A).Nonsingular x2 y2) (hx : x1 ≠ x2) :
    uCoord (Point.some h1 + Point.some h2) * uCoord (Point.some h2 + -Point.some h1) *
      (x1 - x2) ^ 2 = (x1 * x2 - 1) ^ 2 := by
  have e1 := (montgomery_equation x1 y1).mp h1.1
  have e2 := (montgomery_equation x2 y2).mp h2.1
  have hd : x1 - x2 ≠ 0 := sub_ne_zero.mpr hx
  have hd' : x2 - x1 ≠ 0 := sub_ne_zero.mpr (Ne.symm hx)
  rw [Point.neg_some, Point.add_of_X_ne hx, Point.add_of_X_ne (Ne.symm hx), uCoord_some,
    uCoord_some, slope_of_X_ne hx, slope_of_X_ne (Ne.symm hx), montgomery_negY]
  set L := (y1 - y2) / (x1 - x2)
  set L' := (y2 - -y1) / (x2 - x1)
  have hL : L * (x1 - x2) = y1 - y2 := div_mul_cancel₀ _ hd
  have hL' : L' * (x2 - x1) = y2 + y1 := by rw [div_mul_cancel₀ _ hd']; ring
  have hsum : (montgomery A).addX x1 x2 L * (x1 - x2) ^ 2 =
      (y1 - y2) ^ 2 - (A + x1 + x2) * (x1 - x2) ^ 2 := by
    simp only [addX, montgomery]
    linear_combination (L * (x1 - x2) + (y1 - y2)) * hL
  have hdiff : (montgomery A).addX x2 x1 L' * (x1 - x2) ^ 2 =
      (y1 + y2) ^ 2 - (A + x1 + x2) * (x1 - x2) ^ 2 := by
    simp only [addX, montgomery]
    linear_combination (L' * (x2 - x1) + (y2 + y1)) * hL'
  have hprod : ((y1 - y2) ^ 2 - (A + x1 + x2) * (x1 - x2) ^ 2) *
      ((y1 + y2) ^ 2 - (A + x1 + x2) * (x1 - x2) ^ 2) = (x1 * x2 - 1) ^ 2 * (x1 - x2) ^ 2 := by
    linear_combination
      (y1 ^ 2 - y2 ^ 2 + (x1 ^ 3 + A * x1 ^ 2 + x1) - (x2 ^ 3 + A * x2 ^ 2 + x2) -
        2 * ((A + x1 + x2) * (x1 - x2) ^ 2)) * e1 +
      (-(y1 ^ 2 - y2 ^ 2 + (x1 ^ 3 + A * x1 ^ 2 + x1) - (x2 ^ 3 + A * x2 ^ 2 + x2)) -
        2 * ((A + x1 + x2) * (x1 - x2) ^ 2)) * e2
  have key : ((montgomery A).addX x1 x2 L * (montgomery A).addX x2 x1 L' * (x1 - x2) ^ 2 -
      (x1 * x2 - 1) ^ 2) * (x1 - x2) ^ 2 = 0 := by
    linear_combination (montgomery A).addX x2 x1 L' * (x1 - x2) ^ 2 * hsum +
      ((y1 - y2) ^ 2 - (A + x1 + x2) * (x1 - x2) ^ 2) * hdiff + hprod
  exact sub_eq_zero.mp ((mul_eq_zero.mp key).resolve_right (pow_ne_zero 2 hd))


/-! ## Projective `u`-coordinates -/

/-- `(X : Z)` is the `u`-coordinate of `Q`: `Z = 0` and `X ≠ 0` at infinity, `Z ≠ 0` and
`X = u Z` at an affine point. -/
def XZRep (X Z : F) : (montgomery A).Point → Prop
  | .zero => Z = 0 ∧ X ≠ 0
  | @Point.some _ _ _ x _ _ => Z ≠ 0 ∧ X = x * Z

theorem XZRep_of_ne_zero {X Z : F} {Q : (montgomery A).Point} (hQ : Q ≠ 0) :
    XZRep X Z Q ↔ Z ≠ 0 ∧ X = uCoord Q * Z := by
  rcases Q with _ | _
  · exact absurd rfl hQ
  · rfl

/-- `X / Z` is the `u`-coordinate, with `0` at infinity where `Z = 0`. -/
theorem XZRep.div_eq {X Z : F} {Q : (montgomery A).Point} (h : XZRep X Z Q) :
    X * Z⁻¹ = uCoord Q := by
  rcases Q with _ | _
  · rw [h.1, inv_zero, mul_zero]; rfl
  · rw [h.2, mul_inv_cancel_right₀ h.1]; rfl

section Formulas

variable (h2 : (2 : F) ≠ 0)
include h2

theorem four_ne_zero_of : (4 : F) ≠ 0 := by
  rw [show (4 : F) = 2 * 2 by norm_num]; exact mul_ne_zero h2 h2

theorem montgomery_Δ_ne_zero (hA : A ^ 2 ≠ 4) : (montgomery A).Δ ≠ 0 := by
  rw [montgomery_Δ, show (16 : F) = 2 ^ 4 by norm_num]
  exact mul_ne_zero (pow_ne_zero 4 h2) (sub_ne_zero.mpr hA)

/-- Doubling an affine point with `v ≠ 0`: `u(2 Q) · 4 v^2 = (u^2 - 1)^2`. -/
theorem uCoord_add_self {x y : F} (h : (montgomery A).Nonsingular x y) (hy : y ≠ 0) :
    Point.some h + Point.some h ≠ 0 ∧
      uCoord (Point.some h + Point.some h) * (4 * y ^ 2) = (x ^ 2 - 1) ^ 2 := by
  have hy' : y ≠ (montgomery A).negY x y := by
    rw [montgomery_negY]; intro h'; apply hy
    have : (2 : F) * y = 0 := by linear_combination h'
    exact (mul_eq_zero.mp this).resolve_left h2
  have he := (montgomery_equation x y).mp h.1
  rw [Point.add_self_of_Y_ne hy']
  refine ⟨Point.some_ne_zero _, ?_⟩
  rw [uCoord_some, slope_of_Y_ne rfl hy']
  have h2y : y - (montgomery A).negY x y ≠ 0 := sub_ne_zero.mpr hy'
  set L := (3 * x ^ 2 + 2 * (montgomery A).a₂ * x + (montgomery A).a₄ - (montgomery A).a₁ * y) /
    (y - (montgomery A).negY x y) with hLdef
  have hL : L * (2 * y) = 3 * x ^ 2 + 2 * A * x + 1 := by
    rw [hLdef, show 2 * y = y - (montgomery A).negY x y by rw [montgomery_negY]; ring,
      div_mul_cancel₀ _ h2y]
    simp [montgomery]
  simp only [addX, montgomery]
  linear_combination (L * (2 * y) + (3 * x ^ 2 + 2 * A * x + 1)) * hL - 4 * (A + 2 * x) * he


/-- `xDBL`: `((X^2 - Z^2)^2 : 4 X Z (X^2 + A X Z + Z^2))` is `u(2 Q)`. -/
theorem XZRep.dbl (hA : A ^ 2 ≠ 4) {X Z : F} {Q : (montgomery A).Point} (hQ : XZRep X Z Q) :
    XZRep ((X ^ 2 - Z ^ 2) ^ 2) (4 * X * Z * (X ^ 2 + A * X * Z + Z ^ 2)) (Q + Q) := by
  rcases Q with _ | @⟨x, y, h⟩
  · obtain ⟨rfl, hX⟩ := hQ
    exact ⟨by ring, by simpa using hX⟩
  · obtain ⟨hZ, rfl⟩ := hQ
    have he := (montgomery_equation x y).mp h.1
    have hZ' : 4 * (x * Z) * Z * ((x * Z) ^ 2 + A * (x * Z) * Z + Z ^ 2) = 4 * Z ^ 4 * y ^ 2 := by
      linear_combination -4 * Z ^ 4 * he
    by_cases hy : y = 0
    · subst hy
      rw [Point.add_self_of_Y_eq (by rw [montgomery_negY, neg_zero])]
      refine ⟨by rw [hZ']; ring, ?_⟩
      have hx2 : x ^ 2 ≠ 1 := by
        intro hx2
        apply hA
        have hAx : A = -2 * x := by linear_combination -he - (x + A) * hx2
        rw [hAx]; linear_combination 4 * hx2
      rw [show ((x * Z) ^ 2 - Z ^ 2) ^ 2 = (Z ^ 2) ^ 2 * (x ^ 2 - 1) ^ 2 by ring]
      exact mul_ne_zero (pow_ne_zero _ (pow_ne_zero _ hZ)) (pow_ne_zero _ (sub_ne_zero.mpr hx2))
    · obtain ⟨hne, hu⟩ := uCoord_add_self h2 h hy
      rw [XZRep_of_ne_zero hne, hZ']
      exact ⟨mul_ne_zero (mul_ne_zero (four_ne_zero_of h2) (pow_ne_zero _ hZ)) (pow_ne_zero _ hy),
        by linear_combination -Z ^ 4 * hu⟩

/-- A point with `u^2 = 1` doubles to `(0, 0)` or to infinity, so `u(2 R) ≠ 0` forces
`u(R)^2 ≠ 1`. -/
theorem sq_ne_one_of_uCoord_add_self {x y : F} (h : (montgomery A).Nonsingular x y)
    (hu : uCoord (Point.some h + Point.some h) ≠ 0) : x ^ 2 ≠ 1 := by
  intro hx
  by_cases hy : y = 0
  · subst hy
    exact hu (by rw [Point.add_self_of_Y_eq (by rw [montgomery_negY, neg_zero])]; rfl)
  · have hd := (uCoord_add_self h2 h hy).2
    rw [hx, sub_self, zero_pow two_ne_zero] at hd
    exact hu ((mul_eq_zero.mp hd).resolve_right
      (mul_ne_zero (four_ne_zero_of h2) (pow_ne_zero _ hy)))

/-- `xADD` with `Q` at infinity: the outputs represent `R`, whose `u`-coordinate is `u`. -/
theorem XZRep.diffAdd_zero {X2 Z2 X3 Z3 u : F} {R : (montgomery A).Point} (hQ : XZRep X2 Z2 (0 : (montgomery A).Point))
    (hR : XZRep X3 Z3 R) (hRu : uCoord R = u) (hu : u ≠ 0) :
    XZRep (4 * (X2 * X3 - Z2 * Z3) ^ 2) (4 * u * (X3 * Z2 - X2 * Z3) ^ 2) R := by
  have hR0 : R ≠ 0 := by rintro rfl; exact hu hRu.symm
  obtain ⟨rfl, hX2⟩ := hQ
  obtain ⟨hZ3, hX3⟩ := (XZRep_of_ne_zero hR0).mp hR
  rw [XZRep_of_ne_zero hR0, hX3, hRu]
  exact ⟨mul_ne_zero (mul_ne_zero (four_ne_zero_of h2) hu)
    (pow_ne_zero _ (by simpa using And.intro hX2 hZ3)), by ring⟩

/-- `xADD`: when the difference `R - Q` has `u`-coordinate `u ≠ 0`,
`(4 (X₂ X₃ - Z₂ Z₃)^2 : 4 u (X₃ Z₂ - X₂ Z₃)^2)` is `u(Q + R)`. -/
theorem XZRep.diffAdd {X2 Z2 X3 Z3 u : F} {Q R : (montgomery A).Point} (hQ : XZRep X2 Z2 Q)
    (hR : XZRep X3 Z3 R) (hRQ : uCoord (R - Q) = u) (hu : u ≠ 0) :
    XZRep (4 * (X2 * X3 - Z2 * Z3) ^ 2) (4 * u * (X3 * Z2 - X2 * Z3) ^ 2) (Q + R) := by
  rcases Q with _ | @⟨x1, y1, h1⟩
  case zero =>
    rw [Point.zero_def, sub_zero] at hRQ
    rw [Point.zero_def, zero_add]
    exact hQ.diffAdd_zero h2 hR hRQ hu
  rcases R with _ | @⟨x2, y2, hR2⟩
  case zero =>
    rw [Point.zero_def, zero_sub, uCoord_neg] at hRQ
    rw [Point.zero_def, add_zero, show X2 * X3 - Z2 * Z3 = X3 * X2 - Z3 * Z2 by ring,
      show (X3 * Z2 - X2 * Z3) ^ 2 = (X2 * Z3 - X3 * Z2) ^ 2 by ring]
    exact hR.diffAdd_zero h2 hQ hRQ hu
  obtain ⟨hZ2, rfl⟩ := hQ
  obtain ⟨hZ3, rfl⟩ := hR
  by_cases hx : x1 = x2
  · -- `R = ± Q`: `R = Q` would make the difference infinity, so `R = -Q` and `Q + R = 0`.
    subst hx
    rcases Y_eq_of_X_eq h1.1 hR2.1 rfl with rfl | hy
    · rw [sub_self, uCoord_zero] at hRQ
      exact absurd hRQ.symm hu
    have hsum : Point.some h1 + Point.some hR2 = 0 := Point.add_of_Y_eq rfl hy
    have hRR : Point.some hR2 - Point.some h1 = Point.some hR2 + Point.some hR2 := by
      rw [sub_eq_add_neg, neg_eq_of_add_eq_zero_right hsum]
    have hx2 := sq_ne_one_of_uCoord_add_self h2 hR2 (by rw [← hRR, hRQ]; exact hu)
    rw [hsum, show (x1 * Z2 * (x1 * Z3) - Z2 * Z3) ^ 2 = (Z2 * Z3) ^ 2 * (x1 ^ 2 - 1) ^ 2 by ring]
    exact ⟨by ring, mul_ne_zero (four_ne_zero_of h2) (mul_ne_zero
      (pow_ne_zero _ (mul_ne_zero hZ2 hZ3)) (pow_ne_zero _ (sub_ne_zero.mpr hx2)))⟩
  · have key := uCoord_add_mul_sub h1 hR2 hx
    rw [← sub_eq_add_neg, hRQ] at key
    have hne : Point.some h1 + Point.some hR2 ≠ 0 := by
      rw [Point.add_of_X_ne hx]; exact Point.some_ne_zero _
    rw [XZRep_of_ne_zero hne, show x2 * Z3 * Z2 - x1 * Z2 * Z3 = (x2 - x1) * (Z2 * Z3) by ring]
    refine ⟨mul_ne_zero (mul_ne_zero (four_ne_zero_of h2) hu) (pow_ne_zero _
      (mul_ne_zero (sub_ne_zero.mpr (Ne.symm hx)) (mul_ne_zero hZ2 hZ3))), ?_⟩
    linear_combination -4 * (Z2 * Z3) ^ 2 * key

end Formulas

end AvbCurve25519
