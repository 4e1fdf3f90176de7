import AvbCurve25519.Field.Fe

/-!
# The group formulas `ge_*`

The code keeps curve points in four coordinate systems (`ge_p2`, `ge_p3`, `ge_p1p1`,
`ge_cached`) and one for affine table entries (`ge_precomp`); their declarations are in a
header that is not among the sources, and the field names below are those the code uses.
Each system has a representation relation `Rep` to the points of `ed25519`: `ge_p3` is
extended `(X : Y : Z : T)` with `x = X/Z`, `y = Y/Z`, `T = xyZ`; `ge_p1p1` is completed
`((X : Z), (Y : T))`. The formulas are translated from `avb_curve25519.c:541-678`.
`rep_x25519GeAdd` and `rep_geP2Dbl` show that addition and doubling compute the Edwards sum;
subtraction and the mixed additions reduce to addition.
-/

namespace AvbCurve25519

open EdCurve

/-- `ge_p2`: projective coordinates `(X : Y : Z)`. -/
@[ext]
structure GeP2 where
  X : Fe
  Y : Fe
  Z : Fe

/-- `ge_p3`: extended coordinates `(X : Y : Z : T)`. -/
@[ext]
structure GeP3 where
  X : Fe
  Y : Fe
  Z : Fe
  T : Fe

/-- `ge_p1p1`: completed coordinates `((X : Z), (Y : T))`. -/
@[ext]
structure GeP1p1 where
  X : Fe
  Y : Fe
  Z : Fe
  T : Fe

/-- `ge_cached`: `(Y + X, Y - X, Z, 2 d T)`. -/
@[ext]
structure GeCached where
  YplusX : Fe
  YminusX : Fe
  Z : Fe
  T2d : Fe

/-- `ge_precomp`: an affine point as `(y + x, y - x, 2 d x y)`. -/
@[ext]
structure GePrecomp where
  yplusx : Fe
  yminusx : Fe
  xy2d : Fe

/-! ## The formulas -/

/-- `ge_p3_0` (`avb_curve25519.c:528-533`). -/
def geP30 : GeP3 := ⟨0, 1, 1, 0⟩

/-- `ge_p2_0` (`avb_curve25519.c:521-526`). -/
def geP20 : GeP2 := ⟨0, 1, 1⟩

/-- `ge_cached_0` (`avb_curve25519.c:534-539`). -/
def geCached0 : GeCached := ⟨1, 1, 1, 0⟩

/-- `ge_precomp_0` (`avb_curve25519.c:541-545`). -/
def gePrecomp0 : GePrecomp := ⟨1, 1, 0⟩

/-- `ge_p3_to_p2` (`avb_curve25519.c:548-552`). -/
def geP3ToP2 (p : GeP3) : GeP2 := ⟨p.X, p.Y, p.Z⟩

/-- `x25519_ge_p3_to_cached` (`avb_curve25519.c:555-560`). -/
def x25519GeP3ToCached (p : GeP3) : GeCached := ⟨p.Y + p.X, p.Y - p.X, p.Z, p.T * d2⟩

/-- `x25519_ge_p1p1_to_p2` (`avb_curve25519.c:563-567`). -/
def x25519GeP1p1ToP2 (p : GeP1p1) : GeP2 := ⟨p.X * p.T, p.Y * p.Z, p.Z * p.T⟩

/-- `x25519_ge_p1p1_to_p3` (`avb_curve25519.c:570-575`). -/
def x25519GeP1p1ToP3 (p : GeP1p1) : GeP3 := ⟨p.X * p.T, p.Y * p.Z, p.Z * p.T, p.X * p.Y⟩

/-- `ge_p1p1_to_cached` (`avb_curve25519.c:578-582`). -/
def geP1p1ToCached (p : GeP1p1) : GeCached := x25519GeP3ToCached (x25519GeP1p1ToP3 p)

/-- `fe_sq2_tt` (`avb_curve25519.c:388-396`): `2 f^2`. -/
def feSq2 (f : Fe) : Fe := f * f + f * f

/-- `ge_p2_dbl` (`avb_curve25519.c:585-601`). -/
def geP2Dbl (p : GeP2) : GeP1p1 :=
  let trX := p.X * p.X
  let trZ := p.Y * p.Y
  let trT := feSq2 p.Z
  let rY := p.X + p.Y
  let t0 := rY * rY
  let rY := trZ + trX
  let rZ := trZ - trX
  let trZ := rY
  let rX := t0 - trZ
  let trZ := rZ
  let rT := trT - trZ
  ⟨rX, rY, rZ, rT⟩

/-- `ge_p3_dbl` (`avb_curve25519.c:604-608`). -/
def geP3Dbl (p : GeP3) : GeP1p1 := geP2Dbl (geP3ToP2 p)

/-- `ge_madd` (`avb_curve25519.c:611-625`). -/
def geMadd (p : GeP3) (q : GePrecomp) : GeP1p1 :=
  let rX := p.Y + p.X
  let rY := p.Y - p.X
  let trZ := rX * q.yplusx
  let trY := rY * q.yminusx
  let trT := q.xy2d * p.T
  let rT := p.Z + p.Z
  let rX := trZ - trY
  let rY := trZ + trY
  let trZ := rT
  let rZ := trZ + trT
  let rT := trZ - trT
  ⟨rX, rY, rZ, rT⟩

/-- `ge_msub` (`avb_curve25519.c:628-642`). -/
def geMsub (p : GeP3) (q : GePrecomp) : GeP1p1 :=
  let rX := p.Y + p.X
  let rY := p.Y - p.X
  let trZ := rX * q.yminusx
  let trY := rY * q.yplusx
  let trT := q.xy2d * p.T
  let rT := p.Z + p.Z
  let rX := trZ - trY
  let rY := trZ + trY
  let trZ := rT
  let rZ := trZ - trT
  let rT := trZ + trT
  ⟨rX, rY, rZ, rT⟩

/-- `x25519_ge_add` (`avb_curve25519.c:645-660`). -/
def x25519GeAdd (p : GeP3) (q : GeCached) : GeP1p1 :=
  let rX := p.Y + p.X
  let rY := p.Y - p.X
  let trZ := rX * q.YplusX
  let trY := rY * q.YminusX
  let trT := q.T2d * p.T
  let trX := p.Z * q.Z
  let rT := trX + trX
  let rX := trZ - trY
  let rY := trZ + trY
  let trZ := rT
  let rZ := trZ + trT
  let rT := trZ - trT
  ⟨rX, rY, rZ, rT⟩

/-- `x25519_ge_sub` (`avb_curve25519.c:663-678`). -/
def x25519GeSub (p : GeP3) (q : GeCached) : GeP1p1 :=
  let rX := p.Y + p.X
  let rY := p.Y - p.X
  let trZ := rX * q.YminusX
  let trY := rY * q.YplusX
  let trT := q.T2d * p.T
  let trX := p.Z * q.Z
  let rT := trX + trX
  let rX := trZ - trY
  let rY := trZ + trY
  let trZ := rT
  let rZ := trZ - trT
  let rT := trZ + trT
  ⟨rX, rY, rZ, rT⟩

/-- The cached form of an affine table entry, as `ge_madd` uses it: `Z = 1`. -/
def GePrecomp.toCached (q : GePrecomp) : GeCached := ⟨q.yplusx, q.yminusx, 1, q.xy2d⟩

/-- The cached form of the negated point: `y ± x` swap and `2 d T` changes sign. -/
def GeCached.neg (q : GeCached) : GeCached := ⟨q.YminusX, q.YplusX, q.Z, -q.T2d⟩

theorem x25519GeSub_eq (p : GeP3) (q : GeCached) : x25519GeSub p q = x25519GeAdd p q.neg := by
  ext <;> simp only [x25519GeSub, x25519GeAdd, GeCached.neg] <;> ring

theorem geMadd_eq (p : GeP3) (q : GePrecomp) : geMadd p q = x25519GeAdd p q.toCached := by
  ext <;> simp only [geMadd, x25519GeAdd, GePrecomp.toCached] <;> ring

theorem geMsub_eq (p : GeP3) (q : GePrecomp) : geMsub p q = x25519GeSub p q.toCached := by
  ext <;> simp only [geMsub, x25519GeSub, GePrecomp.toCached] <;> ring

/-! ## Representations -/

/-- `p` is `(xZ : yZ : Z : xyZ)` for the point `P = (x, y)`, with `Z ≠ 0`. -/
structure GeP3.Rep (p : GeP3) (P : ed25519.Point) : Prop where
  Z_ne : p.Z ≠ 0
  X_eq : p.X = P.x * p.Z
  Y_eq : p.Y = P.y * p.Z
  T_eq : p.T = P.x * P.y * p.Z

/-- `p` is `(xZ : yZ : Z)` for the point `P = (x, y)`, with `Z ≠ 0`. -/
structure GeP2.Rep (p : GeP2) (P : ed25519.Point) : Prop where
  Z_ne : p.Z ≠ 0
  X_eq : p.X = P.x * p.Z
  Y_eq : p.Y = P.y * p.Z

/-- `p` is `((xZ : Z), (yT : T))` for the point `P = (x, y)`, with `Z, T ≠ 0`. -/
structure GeP1p1.Rep (p : GeP1p1) (P : ed25519.Point) : Prop where
  Z_ne : p.Z ≠ 0
  T_ne : p.T ≠ 0
  X_eq : p.X = P.x * p.Z
  Y_eq : p.Y = P.y * p.T

/-- `q` is `((y + x) Z, (y - x) Z, Z, 2 d x y Z)` for the point `P = (x, y)`, with `Z ≠ 0`. -/
structure GeCached.Rep (q : GeCached) (P : ed25519.Point) : Prop where
  Z_ne : q.Z ≠ 0
  YplusX_eq : q.YplusX = (P.y + P.x) * q.Z
  YminusX_eq : q.YminusX = (P.y - P.x) * q.Z
  T2d_eq : q.T2d = d2 * P.x * P.y * q.Z

/-- `q` is `(y + x, y - x, 2 d x y)` for the point `P = (x, y)`. -/
structure GePrecomp.Rep (q : GePrecomp) (P : ed25519.Point) : Prop where
  yplusx_eq : q.yplusx = P.y + P.x
  yminusx_eq : q.yminusx = P.y - P.x
  xy2d_eq : q.xy2d = d2 * P.x * P.y

/-- The precomputed form of a point. -/
def GePrecomp.ofPoint (P : ed25519.Point) : GePrecomp := ⟨P.y + P.x, P.y - P.x, d2 * P.x * P.y⟩

theorem GePrecomp.rep_ofPoint (P : ed25519.Point) : (GePrecomp.ofPoint P).Rep P := ⟨rfl, rfl, rfl⟩

theorem GeP3.rep_geP30 : geP30.Rep 0 := ⟨one_ne_zero, by simp [geP30], by simp [geP30], by simp [geP30]⟩

theorem GeP2.rep_geP20 : geP20.Rep 0 := ⟨one_ne_zero, by simp [geP20], by simp [geP20]⟩

/-- A projective point represents at most one point. -/
theorem GeP2.Rep.unique {p : GeP2} {P Q : ed25519.Point} (hP : p.Rep P) (hQ : p.Rep Q) :
    P = Q := by
  ext
  · exact mul_right_cancel₀ hP.Z_ne (hP.X_eq.symm.trans hQ.X_eq)
  · exact mul_right_cancel₀ hP.Z_ne (hP.Y_eq.symm.trans hQ.Y_eq)

theorem GeCached.rep_geCached0 : geCached0.Rep 0 :=
  ⟨one_ne_zero, by simp [geCached0], by simp [geCached0], by simp [geCached0]⟩

theorem GePrecomp.rep_gePrecomp0 : gePrecomp0.Rep 0 := ⟨by simp [gePrecomp0], by simp [gePrecomp0],
  by simp [gePrecomp0]⟩

variable {P Q : ed25519.Point}

theorem GeP3.Rep.toP2 {p : GeP3} (h : p.Rep P) : (geP3ToP2 p).Rep P := ⟨h.Z_ne, h.X_eq, h.Y_eq⟩

theorem GeP3.Rep.toCached {p : GeP3} (h : p.Rep P) : (x25519GeP3ToCached p).Rep P where
  Z_ne := h.Z_ne
  YplusX_eq := by simp only [x25519GeP3ToCached, h.X_eq, h.Y_eq]; ring
  YminusX_eq := by simp only [x25519GeP3ToCached, h.X_eq, h.Y_eq]; ring
  T2d_eq := by simp only [x25519GeP3ToCached, h.T_eq]; ring

theorem GeP1p1.Rep.toP3 {p : GeP1p1} (h : p.Rep P) : (x25519GeP1p1ToP3 p).Rep P where
  Z_ne := mul_ne_zero h.Z_ne h.T_ne
  X_eq := by simp only [x25519GeP1p1ToP3, h.X_eq]; ring
  Y_eq := by simp only [x25519GeP1p1ToP3, h.Y_eq]; ring
  T_eq := by simp only [x25519GeP1p1ToP3, h.X_eq, h.Y_eq]; ring

theorem GeP1p1.Rep.toP2 {p : GeP1p1} (h : p.Rep P) : (x25519GeP1p1ToP2 p).Rep P where
  Z_ne := mul_ne_zero h.Z_ne h.T_ne
  X_eq := by simp only [x25519GeP1p1ToP2, h.X_eq]; ring
  Y_eq := by simp only [x25519GeP1p1ToP2, h.Y_eq]; ring

theorem GePrecomp.Rep.toCached {q : GePrecomp} (h : q.Rep P) : q.toCached.Rep P where
  Z_ne := one_ne_zero
  YplusX_eq := by simp [GePrecomp.toCached, h.yplusx_eq]
  YminusX_eq := by simp [GePrecomp.toCached, h.yminusx_eq]
  T2d_eq := by simp [GePrecomp.toCached, h.xy2d_eq]

theorem GeCached.Rep.neg {q : GeCached} (h : q.Rep P) : q.neg.Rep (-P) where
  Z_ne := h.Z_ne
  YplusX_eq := by simp only [GeCached.neg, h.YminusX_eq, x_neg, y_neg]; ring
  YminusX_eq := by simp only [GeCached.neg, h.YplusX_eq, x_neg, y_neg]; ring
  T2d_eq := by simp only [GeCached.neg, h.T2d_eq, x_neg, y_neg]; ring

/-- A completed point whose coordinates are the numerators and denominators of `P`'s,
scaled by one nonzero factor, represents `P`. -/
theorem GeP1p1.rep_of_scaled {r : GeP1p1} {k N1 D1 N2 D2 : Fe} (hk : k ≠ 0) (hD1 : D1 ≠ 0)
    (hD2 : D2 ≠ 0) (hX : r.X = k * N1) (hZ : r.Z = k * D1) (hY : r.Y = k * N2)
    (hT : r.T = k * D2) (hx : P.x = N1 / D1) (hy : P.y = N2 / D2) : r.Rep P where
  Z_ne := hZ ▸ mul_ne_zero hk hD1
  T_ne := hT ▸ mul_ne_zero hk hD2
  X_eq := by rw [hX, hZ, hx, mul_left_comm, div_mul_cancel₀ _ hD1]
  Y_eq := by rw [hY, hT, hy, mul_left_comm, div_mul_cancel₀ _ hD2]

/-- `x25519_ge_add` computes the Edwards sum: its outputs are `2 Z1 Z2` times the numerators
and denominators of the addition law. -/
theorem rep_x25519GeAdd {p : GeP3} {q : GeCached} (hp : p.Rep P) (hq : q.Rep Q) :
    (x25519GeAdd p q).Rep (P + Q) := by
  have hk : 2 * p.Z * q.Z ≠ 0 := mul_ne_zero (mul_ne_zero two_ne_zero' hp.Z_ne) hq.Z_ne
  refine GeP1p1.rep_of_scaled hk (one_add_d_mul_ne_zero P Q) (one_sub_d_mul_ne_zero P Q)
    ?_ ?_ ?_ ?_ rfl rfl <;>
  · simp only [x25519GeAdd, hp.X_eq, hp.Y_eq, hp.T_eq, hq.YplusX_eq, hq.YminusX_eq, hq.T2d_eq, d2,
      ed25519_d]
    ring

/-- `ge_p2_dbl` computes `P + P`: its outputs are `Z^2` times the numerators and
denominators of the addition law at `(P, P)`, by the curve equation. -/
theorem rep_geP2Dbl {p : GeP2} (hp : p.Rep P) : (geP2Dbl p).Rep (P + P) := by
  have hc := P.on_curve
  simp only [ed25519_d] at hc
  refine GeP1p1.rep_of_scaled (pow_ne_zero 2 hp.Z_ne) (one_add_d_mul_ne_zero P P)
    (one_sub_d_mul_ne_zero P P) ?_ ?_ ?_ ?_ rfl rfl <;>
    simp only [geP2Dbl, feSq2, hp.X_eq, hp.Y_eq, ed25519_d]
  · ring
  · linear_combination p.Z ^ 2 * hc
  · ring
  · linear_combination -p.Z ^ 2 * hc

theorem rep_geP3Dbl {p : GeP3} (hp : p.Rep P) : (geP3Dbl p).Rep (P + P) := rep_geP2Dbl hp.toP2

theorem rep_x25519GeSub {p : GeP3} {q : GeCached} (hp : p.Rep P) (hq : q.Rep Q) :
    (x25519GeSub p q).Rep (P - Q) := by
  rw [x25519GeSub_eq, sub_eq_add_neg]
  exact rep_x25519GeAdd hp hq.neg

theorem rep_geMadd {p : GeP3} {q : GePrecomp} (hp : p.Rep P) (hq : q.Rep Q) :
    (geMadd p q).Rep (P + Q) := by
  rw [geMadd_eq]
  exact rep_x25519GeAdd hp hq.toCached

theorem rep_geMsub {p : GeP3} {q : GePrecomp} (hp : p.Rep P) (hq : q.Rep Q) :
    (geMsub p q).Rep (P - Q) := by
  rw [geMsub_eq]
  exact rep_x25519GeSub hp hq.toCached

/-! ## Valid extended points -/

/-- A valid extended point: `Z ≠ 0`, `X Y = Z T` and `-X^2 + Y^2 = Z^2 + d T^2`. -/
structure GeP3.Valid (p : GeP3) : Prop where
  Z_ne : p.Z ≠ 0
  XY_eq : p.X * p.Y = p.Z * p.T
  curve : -p.X ^ 2 + p.Y ^ 2 = p.Z ^ 2 + d * p.T ^ 2

/-- The affine point `(X/Z, Y/Z)` of a valid extended point. -/
def GeP3.toPoint (p : GeP3) (h : p.Valid) : ed25519.Point :=
  ⟨p.X / p.Z, p.Y / p.Z, by
    have hz : p.Z * p.Z⁻¹ = 1 := mul_inv_cancel₀ h.Z_ne
    rw [ed25519_d, div_eq_mul_inv, div_eq_mul_inv]
    linear_combination p.Z⁻¹ ^ 2 * h.curve + (p.Z * p.Z⁻¹ + 1) * (1 - d * p.Z⁻¹ ^ 2 * p.T ^ 2) * hz -
      d * p.Z⁻¹ ^ 4 * (p.X * p.Y + p.Z * p.T) * h.XY_eq⟩

theorem GeP3.Rep.valid {p : GeP3} (h : p.Rep P) : p.Valid where
  Z_ne := h.Z_ne
  XY_eq := by rw [h.X_eq, h.Y_eq, h.T_eq]; ring
  curve := by
    have hc := P.on_curve
    simp only [ed25519_d] at hc
    rw [h.X_eq, h.Y_eq, h.T_eq]
    linear_combination p.Z ^ 2 * hc

theorem GeP3.rep_toPoint {p : GeP3} (h : p.Valid) : p.Rep (p.toPoint h) where
  Z_ne := h.Z_ne
  X_eq := (div_mul_cancel₀ _ h.Z_ne).symm
  Y_eq := (div_mul_cancel₀ _ h.Z_ne).symm
  T_eq := by
    have hz : p.Z * p.Z⁻¹ = 1 := mul_inv_cancel₀ h.Z_ne
    show p.T = p.X / p.Z * (p.Y / p.Z) * p.Z
    rw [div_eq_mul_inv, div_eq_mul_inv]
    linear_combination -(p.T * (p.Z * p.Z⁻¹ + 1)) * hz - p.Z⁻¹ ^ 2 * p.Z * h.XY_eq

theorem GeP3.Rep.toPoint_eq {p : GeP3} (h : p.Rep P) : p.toPoint h.valid = P := by
  ext
  · simp only [GeP3.toPoint, h.X_eq, mul_div_cancel_right₀ _ h.Z_ne]
  · simp only [GeP3.toPoint, h.Y_eq, mul_div_cancel_right₀ _ h.Z_ne]

/-- `p` is a valid extended point for `P`. -/
def GeP3.Is (p : GeP3) (P : ed25519.Point) : Prop := ∃ h : p.Valid, p.toPoint h = P

theorem GeP3.Rep.is {p : GeP3} (h : p.Rep P) : p.Is P := ⟨h.valid, h.toPoint_eq⟩

/-- The affine form `(x, y, 1, x y)` of a point represents it. -/
theorem GeP3.rep_affine (P : ed25519.Point) : (⟨P.x, P.y, 1, P.x * P.y⟩ : GeP3).Rep P :=
  ⟨one_ne_zero, (mul_one _).symm, (mul_one _).symm, (mul_one _).symm⟩

/-- Negating `X` and `T` with `fe_neg` negates the point. -/
theorem GeP3.Rep.neg {p : GeP3} (h : p.Rep P) : (⟨-p.X, p.Y, p.Z, -p.T⟩ : GeP3).Rep (-P) where
  Z_ne := h.Z_ne
  X_eq := show -p.X = -P.x * p.Z by rw [h.X_eq, neg_mul]
  Y_eq := h.Y_eq
  T_eq := show -p.T = -P.x * P.y * p.Z by rw [h.T_eq, neg_mul, neg_mul]

/-- The `ge_*` formulas compute the Edwards group law on valid extended points, with no
exception for `Q = P`, `Q = -P` or the identity: addition, subtraction, the mixed forms with
a precomputed affine point, and both doublings; and the completed results they produce never
convert to a point with `Z = 0`. -/
theorem ge_formulas_group_law (p q : GeP3) (hp : p.Valid) (hq : q.Valid) :
    (x25519GeP1p1ToP3 (x25519GeAdd p (x25519GeP3ToCached q))).Is (p.toPoint hp + q.toPoint hq) ∧
    (x25519GeP1p1ToP3 (x25519GeSub p (x25519GeP3ToCached q))).Is (p.toPoint hp - q.toPoint hq) ∧
    (x25519GeP1p1ToP3 (geMadd p (GePrecomp.ofPoint (q.toPoint hq)))).Is
      (p.toPoint hp + q.toPoint hq) ∧
    (x25519GeP1p1ToP3 (geMsub p (GePrecomp.ofPoint (q.toPoint hq)))).Is
      (p.toPoint hp - q.toPoint hq) ∧
    (x25519GeP1p1ToP3 (geP3Dbl p)).Is (2 • p.toPoint hp) ∧
    (x25519GeP1p1ToP2 (geP2Dbl (geP3ToP2 p))).Rep (2 • p.toPoint hp) ∧
    ∀ r ∈ [x25519GeAdd p (x25519GeP3ToCached q), x25519GeSub p (x25519GeP3ToCached q),
        geMadd p (GePrecomp.ofPoint (q.toPoint hq)), geMsub p (GePrecomp.ofPoint (q.toPoint hq)),
        geP2Dbl (geP3ToP2 p)],
      (x25519GeP1p1ToP2 r).Z ≠ 0 ∧ (x25519GeP1p1ToP3 r).Z ≠ 0 := by
  have hP := GeP3.rep_toPoint hp
  have hQ := GeP3.rep_toPoint hq
  have hadd := rep_x25519GeAdd hP hQ.toCached
  have hsub := rep_x25519GeSub hP hQ.toCached
  have hmadd := rep_geMadd hP (GePrecomp.rep_ofPoint (q.toPoint hq))
  have hmsub := rep_geMsub hP (GePrecomp.rep_ofPoint (q.toPoint hq))
  have hdbl := rep_geP2Dbl hP.toP2
  rw [two_nsmul]
  refine ⟨hadd.toP3.is, hsub.toP3.is, hmadd.toP3.is, hmsub.toP3.is, (rep_geP3Dbl hP).toP3.is,
    hdbl.toP2, ?_⟩
  simp only [List.mem_cons, List.mem_singleton, List.not_mem_nil, or_false]
  rintro r (rfl | rfl | rfl | rfl | rfl)
  · exact ⟨hadd.toP2.Z_ne, hadd.toP3.Z_ne⟩
  · exact ⟨hsub.toP2.Z_ne, hsub.toP3.Z_ne⟩
  · exact ⟨hmadd.toP2.Z_ne, hmadd.toP3.Z_ne⟩
  · exact ⟨hmsub.toP2.Z_ne, hmsub.toP3.Z_ne⟩
  · exact ⟨hdbl.toP2.Z_ne, hdbl.toP3.Z_ne⟩

/-- The group law at the base point and its double, both in affine form. -/
theorem ge_formulas_group_law_basePoint :
    (x25519GeP1p1ToP3 (x25519GeAdd ⟨basePoint.x, basePoint.y, 1, basePoint.x * basePoint.y⟩
      (x25519GeP3ToCached ⟨(2 • basePoint).x, (2 • basePoint).y, 1,
        (2 • basePoint).x * (2 • basePoint).y⟩))).Is (basePoint + 2 • basePoint) := by
  have h := (ge_formulas_group_law _ _ (GeP3.rep_affine basePoint).valid
    (GeP3.rep_affine (2 • basePoint)).valid).1
  rwa [(GeP3.rep_affine _).toPoint_eq, (GeP3.rep_affine _).toPoint_eq] at h

end AvbCurve25519
