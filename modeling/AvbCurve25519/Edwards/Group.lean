import Mathlib

/-!
# The group of a complete twisted Edwards curve

Ed25519 works on the twisted Edwards curve `-x^2 + y^2 = 1 + d x^2 y^2`. When `-1` is a
square and `d` is not, the addition law
`(x1, y1) + (x2, y2) = ((x1 y2 + y1 x2) / (1 + d x1 x2 y1 y2), (y1 y2 + x1 x2) / (1 - d x1 x2 y1 y2))`
never divides by zero (Bernstein and Lange's completeness), and it makes the points a
commutative group with neutral element `(0, 1)` and `-(x, y) = (-x, y)`. This module proves
both facts over any such field; `x25519_ge_*` are checked against this law later.
-/

namespace AvbCurve25519

/-- The parameters of a complete twisted Edwards curve `-x^2 + y^2 = 1 + d x^2 y^2`: `d` is
not a square, `i` is a square root of `-1`, and the characteristic is not `2`. -/
structure EdCurve (F : Type*) [Field F] where
  d : F
  i : F
  i_mul_i : i * i = -1
  d_nonsquare : ∀ r : F, r * r ≠ d
  two_ne_zero : (2 : F) ≠ 0

namespace EdCurve

variable {F : Type*} [Field F] (E : EdCurve F)

/-- A point of the curve, carrying its curve equation. -/
@[ext]
structure Point where
  x : F
  y : F
  on_curve : -x ^ 2 + y ^ 2 = 1 + E.d * x ^ 2 * y ^ 2

variable {E}

/-! ## Completeness -/

/-- The square identity behind completeness: if `d x1 x2 y1 y2 = ε` with `ε^2 = 1` and
`j^2 = -1`, then `(y1 + j ε x1)^2 = d (x1 y1 (y2 + j x2))^2`. -/
private theorem sq_identity {d x1 y1 x2 y2 ε j : F}
    (h1 : -x1 ^ 2 + y1 ^ 2 = 1 + d * x1 ^ 2 * y1 ^ 2)
    (h2 : -x2 ^ 2 + y2 ^ 2 = 1 + d * x2 ^ 2 * y2 ^ 2)
    (hε : ε * ε = 1) (hj : j * j = -1) (h : d * x1 * x2 * y1 * y2 = ε) :
    (y1 + j * ε * x1) * (y1 + j * ε * x1) =
      d * (x1 * y1 * (y2 + j * x2)) * (x1 * y1 * (y2 + j * x2)) := by
  linear_combination h1 - d * x1 ^ 2 * y1 ^ 2 * h2 - (1 + x1 ^ 2) * hε -
    (d * x1 * x2 * y1 * y2 + ε + 2 * j * x1 * y1) * h +
    (ε ^ 2 * x1 ^ 2 - d * x1 ^ 2 * y1 ^ 2 * x2 ^ 2) * hj

theorem i_ne_zero (E : EdCurve F) : E.i ≠ 0 := fun h0 => by
  have := E.i_mul_i
  rw [h0, mul_zero] at this
  exact one_ne_zero (neg_eq_zero.mp this.symm)

/-- Completeness: `d x1 x2 y1 y2` is never `1` or `-1` on the curve. -/
theorem d_mul_ne (P Q : E.Point) {ε : F} (hε : ε * ε = 1) :
    E.d * P.x * Q.x * P.y * Q.y ≠ ε := by
  intro h
  have hε0 : ε ≠ 0 := by rintro rfl; simp at hε
  have hPQ : P.x * P.y * Q.x ≠ 0 := by
    intro h0; apply hε0; rw [← h]; linear_combination (E.d * Q.y) * h0
  have hroot : ∀ j : F, j * j = -1 → Q.y + j * Q.x = 0 := fun j hj => by
    by_contra hne
    have hb : P.x * P.y * (Q.y + j * Q.x) ≠ 0 :=
      mul_ne_zero (left_ne_zero_of_mul hPQ) hne
    apply E.d_nonsquare ((P.y + j * ε * P.x) / (P.x * P.y * (Q.y + j * Q.x)))
    rw [div_mul_div_comm, sq_identity P.on_curve Q.on_curve hε hj h, mul_assoc,
      mul_div_assoc, div_self (mul_ne_zero hb hb), mul_one]
  have hi := hroot E.i E.i_mul_i
  have hni := hroot (-E.i) (by rw [neg_mul_neg]; exact E.i_mul_i)
  have hx : 2 * E.i * Q.x = 0 := by linear_combination hi - hni
  exact right_ne_zero_of_mul hPQ (by simpa [E.two_ne_zero, E.i_ne_zero] using hx)

theorem one_add_d_mul_ne_zero (P Q : E.Point) : 1 + E.d * P.x * Q.x * P.y * Q.y ≠ 0 := by
  intro h; exact d_mul_ne P Q (show (-1 : F) * -1 = 1 by ring) (by linear_combination h)

theorem one_sub_d_mul_ne_zero (P Q : E.Point) : 1 - E.d * P.x * Q.x * P.y * Q.y ≠ 0 := by
  intro h; exact d_mul_ne P Q (show (1 : F) * 1 = 1 by ring) (by linear_combination -h)

/-! ## The addition law -/

/-- The numerators `u = x1 y2 + y1 x2` and `v = y1 y2 + x1 x2` of a sum satisfy
`v^2 - u^2 = (y1^2 - x1^2) (y2^2 - x2^2)`, which the curve equations turn into
`(1 + d x1^2 y1^2) (1 + d x2^2 y2^2)`. -/
private theorem add_num_sq_sub {R : Type*} [CommRing R] {d x1 y1 x2 y2 : R}
    (h1 : -x1 ^ 2 + y1 ^ 2 = 1 + d * x1 ^ 2 * y1 ^ 2)
    (h2 : -x2 ^ 2 + y2 ^ 2 = 1 + d * x2 ^ 2 * y2 ^ 2) :
    (y1 * y2 + x1 * x2) ^ 2 - (x1 * y2 + y1 * x2) ^ 2 =
      (1 + d * x1 ^ 2 * y1 ^ 2) * (1 + d * x2 ^ 2 * y2 ^ 2) := by
  linear_combination (y2 ^ 2 - x2 ^ 2) * h1 + (1 + d * x1 ^ 2 * y1 ^ 2) * h2

/-- On the curve, `(x^2 + y^2)^2 = (1 + d x^2 y^2)^2 + 4 x^2 y^2`. -/
private theorem sq_add_sq_sq {R : Type*} [CommRing R] {d x y : R}
    (h : -x ^ 2 + y ^ 2 = 1 + d * x ^ 2 * y ^ 2) :
    (x ^ 2 + y ^ 2) ^ 2 = (1 + d * x ^ 2 * y ^ 2) ^ 2 + 4 * x ^ 2 * y ^ 2 := by
  linear_combination (y ^ 2 - x ^ 2 + 1 + d * x ^ 2 * y ^ 2) * h

/-- The sum is on the curve, with the denominators cleared. With `t = d x1 x2 y1 y2`, the left
side is `(v^2 - u^2) (1 + t^2) + 2 t (u^2 + v^2)` and `u v = x1 y1 (x2^2 + y2^2) +
x2 y2 (x1^2 + y1^2)`, so the two identities above are all the curve equations it needs. -/
private theorem add_on_curve_poly {R : Type*} [CommRing R] {d x1 y1 x2 y2 : R}
    (h1 : -x1 ^ 2 + y1 ^ 2 = 1 + d * x1 ^ 2 * y1 ^ 2)
    (h2 : -x2 ^ 2 + y2 ^ 2 = 1 + d * x2 ^ 2 * y2 ^ 2) :
    -(x1 * y2 + y1 * x2) ^ 2 * (1 - d * x1 * x2 * y1 * y2) ^ 2 +
        (y1 * y2 + x1 * x2) ^ 2 * (1 + d * x1 * x2 * y1 * y2) ^ 2 =
      (1 + d * x1 * x2 * y1 * y2) ^ 2 * (1 - d * x1 * x2 * y1 * y2) ^ 2 +
        d * (x1 * y2 + y1 * x2) ^ 2 * (y1 * y2 + x1 * x2) ^ 2 := by
  linear_combination (1 + (d * x1 * x2 * y1 * y2) ^ 2) * add_num_sq_sub h1 h2 -
    d * x2 ^ 2 * y2 ^ 2 * sq_add_sq_sq h1 - d * x1 ^ 2 * y1 ^ 2 * sq_add_sq_sq h2

private theorem on_curve_div {d N1 D1 N2 D2 : F} (h1 : D1 ≠ 0) (h2 : D2 ≠ 0)
    (h : -N1 ^ 2 * D2 ^ 2 + N2 ^ 2 * D1 ^ 2 = D1 ^ 2 * D2 ^ 2 + d * N1 ^ 2 * N2 ^ 2) :
    -(N1 / D1) ^ 2 + (N2 / D2) ^ 2 = 1 + d * (N1 / D1) ^ 2 * (N2 / D2) ^ 2 := by
  field_simp
  linear_combination h

/-- Associativity of the `x`-coordinate, with the denominators cleared. The difference of the
two sides is `d x2 y2` times a polynomial that the curve equation at `P2`, as
`y2^2 (1 - d x2^2) = 1 + x2^2` and `x2^2 (1 + d y2^2) = y2^2 - 1`, brings to
`y2 a + d x2^2 y2 c + x2 g + d x2 y2^2 m`. With `p = x1 y1`, `q = x3 y3` and `e1`, `e3` the
curve equations at `P1` and `P3`, the four parts lie in their ideal:
`a = (x1 y3 - y1 x3) (q e1 + p e3)`, `c = (x1 x3 + y1 y3) (q^2 e1 - p^2 e3)`,
`g = (x1 x3 - y1 y3) (q e1 - p e3)` and `m = (x1 y3 + y1 x3) (q^2 e1 - p^2 e3)`. -/
private theorem assoc_x_poly {R : Type*} [CommRing R] {d x1 y1 x2 y2 x3 y3 : R}
    (h1 : -x1 ^ 2 + y1 ^ 2 = 1 + d * x1 ^ 2 * y1 ^ 2)
    (h2 : -x2 ^ 2 + y2 ^ 2 = 1 + d * x2 ^ 2 * y2 ^ 2)
    (h3 : -x3 ^ 2 + y3 ^ 2 = 1 + d * x3 ^ 2 * y3 ^ 2) :
    ((x1 * y2 + y1 * x2) * y3 * (1 - d * x1 * x2 * y1 * y2) +
        (y1 * y2 + x1 * x2) * x3 * (1 + d * x1 * x2 * y1 * y2)) *
      ((1 + d * x2 * x3 * y2 * y3) * (1 - d * x2 * x3 * y2 * y3) +
        d * x1 * (x2 * y3 + y2 * x3) * y1 * (y2 * y3 + x2 * x3)) =
    (x1 * (y2 * y3 + x2 * x3) * (1 + d * x2 * x3 * y2 * y3) +
        y1 * (x2 * y3 + y2 * x3) * (1 - d * x2 * x3 * y2 * y3)) *
      ((1 + d * x1 * x2 * y1 * y2) * (1 - d * x1 * x2 * y1 * y2) +
        d * (x1 * y2 + y1 * x2) * x3 * (y1 * y2 + x1 * x2) * y3) := by
  have hy2 : y2 ^ 2 * (1 - d * x2 ^ 2) = 1 + x2 ^ 2 := by linear_combination h2
  have hx2 : x2 ^ 2 * (1 + d * y2 ^ 2) = y2 ^ 2 - 1 := by linear_combination -h2
  linear_combination d * x2 * y2 *
    (y2 * (x1 * y3 - y1 * x3) * (x3 * y3 * h1 + x1 * y1 * h3) +
      d * x2 ^ 2 * y2 * (x1 * x3 + y1 * y3) * (x3 ^ 2 * y3 ^ 2 * h1 - x1 ^ 2 * y1 ^ 2 * h3) +
      x2 * (x1 * x3 - y1 * y3) * (x3 * y3 * h1 - x1 * y1 * h3) +
      d * x2 * y2 ^ 2 * (x1 * y3 + y1 * x3) * (x3 ^ 2 * y3 ^ 2 * h1 - x1 ^ 2 * y1 ^ 2 * h3) +
      d * x1 * y1 * x3 * y3 * (y2 * (y1 * x3 - x1 * y3) * (x1 * y1 + x3 * y3) * hy2 -
        x2 * (x1 * x3 - y1 * y3) * (x3 * y3 - x1 * y1) * hx2))

private theorem one_add_frac {k a b c e x y : F} (hb : b ≠ 0) (he : e ≠ 0) :
    1 + k * (a / b) * x * (c / e) * y = (b * e + k * a * c * x * y) / (b * e) := by
  rw [add_div, div_self (mul_ne_zero hb he)]; ring

/-- A sum whose left summand is given as fractions `a / b`, `c / e`, as one fraction. -/
private theorem frac_sum_add {k a b c e x y : F} (hb : b ≠ 0) (he : e ≠ 0) :
    (a / b * y + c / e * x) / (1 + k * (a / b) * x * (c / e) * y) =
      (a * e * y + c * b * x) / (b * e + k * a * c * x * y) := by
  rw [show a / b * y + c / e * x = (a * e * y + c * b * x) / (b * e) by field_simp; ring,
    one_add_frac hb he, div_div_div_cancel_right₀ (mul_ne_zero hb he)]

private theorem frac_den_add_ne {k a b c e x y : F} (hb : b ≠ 0) (he : e ≠ 0)
    (h : 1 + k * (a / b) * x * (c / e) * y ≠ 0) : b * e + k * a * c * x * y ≠ 0 := by
  intro h0; apply h; rw [one_add_frac hb he, h0, zero_div]

variable (E)

/-- The neutral element `(0, 1)`. -/
def zero : E.Point := ⟨0, 1, by ring⟩

/-- `-(x, y) = (-x, y)`. -/
def neg (P : E.Point) : E.Point := ⟨-P.x, P.y, by rw [neg_sq]; exact P.on_curve⟩

/-- The Edwards addition law. -/
def add (P Q : E.Point) : E.Point :=
  ⟨(P.x * Q.y + P.y * Q.x) / (1 + E.d * P.x * Q.x * P.y * Q.y),
    (P.y * Q.y + P.x * Q.x) / (1 - E.d * P.x * Q.x * P.y * Q.y),
    on_curve_div (one_add_d_mul_ne_zero P Q) (one_sub_d_mul_ne_zero P Q)
      (add_on_curve_poly P.on_curve Q.on_curve)⟩

/-- Translation by the point `(i, 0)` of order four: `(x, y) ↦ (i y, i x)`. -/
def swap (P : E.Point) : E.Point :=
  ⟨E.i * P.y, E.i * P.x, by
    linear_combination P.on_curve +
      (P.x ^ 2 - P.y ^ 2 - E.d * P.x ^ 2 * P.y ^ 2 * (E.i ^ 2 - 1)) * E.i_mul_i⟩

variable {E}

private theorem add_x (P Q : E.Point) :
    (E.add P Q).x = (P.x * Q.y + P.y * Q.x) / (1 + E.d * P.x * Q.x * P.y * Q.y) := rfl

private theorem add_y (P Q : E.Point) :
    (E.add P Q).y = (P.y * Q.y + P.x * Q.x) / (1 - E.d * P.x * Q.x * P.y * Q.y) := rfl

/-- Adding `swap Q` is adding `Q` and translating by `(i, 0)`. -/
private theorem add_swap (P Q : E.Point) : E.add P (E.swap Q) = E.swap (E.add P Q) := by
  have hx : 1 + E.d * P.x * (E.i * Q.y) * P.y * (E.i * Q.x) =
      1 - E.d * P.x * Q.x * P.y * Q.y := by
    linear_combination E.d * P.x * Q.x * P.y * Q.y * E.i_mul_i
  have hy : 1 - E.d * P.x * (E.i * Q.y) * P.y * (E.i * Q.x) =
      1 + E.d * P.x * Q.x * P.y * Q.y := by
    linear_combination -(E.d * P.x * Q.x * P.y * Q.y * E.i_mul_i)
  ext <;> simp only [add_x, add_y, swap]
  · rw [hx, mul_div_assoc']; congr 1; ring
  · rw [hy, mul_div_assoc']; congr 1; ring

/-! ## The group laws -/

private theorem add_law_comm (P Q : E.Point) : E.add P Q = E.add Q P := by
  ext <;> simp only [add_x, add_y] <;> congr 1 <;> ring

private theorem add_law_zero_add (P : E.Point) : E.add E.zero P = P := by
  ext <;> simp [add_x, add_y, zero]

private theorem add_law_neg_add_cancel (P : E.Point) : E.add (E.neg P) P = E.zero := by
  have hD := one_sub_d_mul_ne_zero (E.neg P) P
  ext
  · simp only [add_x, neg]
    rw [show -P.x * P.y + P.y * P.x = 0 by ring, zero_div]; rfl
  · simp only [add_y, neg, zero] at hD ⊢
    rw [div_eq_one_iff_eq hD]
    linear_combination P.on_curve

private theorem add_assoc_x (P Q R : E.Point) :
    (E.add (E.add P Q) R).x = (E.add P (E.add Q R)).x := by
  have hPQx := one_add_d_mul_ne_zero P Q
  have hPQy := one_sub_d_mul_ne_zero P Q
  have hQRx := one_add_d_mul_ne_zero Q R
  have hQRy := one_sub_d_mul_ne_zero Q R
  have hLx := one_add_d_mul_ne_zero (E.add P Q) R
  have hRx := one_add_d_mul_ne_zero (E.add Q R) P
  simp only [add_x, add_y] at hLx hRx
  rw [add_law_comm P (E.add Q R)]
  simp only [add_x, add_y]
  rw [frac_sum_add hPQx hPQy, frac_sum_add hQRx hQRy,
    div_eq_div_iff (frac_den_add_ne hPQx hPQy hLx) (frac_den_add_ne hQRx hQRy hRx)]
  linear_combination assoc_x_poly P.on_curve Q.on_curve R.on_curve

/-- Associativity of `y` is that of `x` after a translation by `(i, 0)`, which swaps them. -/
private theorem add_law_assoc (P Q R : E.Point) : E.add (E.add P Q) R = E.add P (E.add Q R) := by
  ext
  · exact add_assoc_x P Q R
  · have h := add_assoc_x P Q (E.swap R)
    rw [add_swap, add_swap, add_swap] at h
    exact mul_left_cancel₀ E.i_ne_zero h

instance : Add E.Point := ⟨E.add⟩

instance : Zero E.Point := ⟨E.zero⟩

instance : Neg E.Point := ⟨E.neg⟩

/-- The points form a commutative group under the Edwards addition law. -/
instance : AddCommGroup E.Point where
  add_assoc := add_law_assoc
  zero_add := add_law_zero_add
  add_zero P := (add_law_comm P E.zero).trans (add_law_zero_add P)
  neg_add_cancel := add_law_neg_add_cancel
  add_comm := add_law_comm
  nsmul := nsmulRec
  zsmul := zsmulRec

@[simp] theorem x_add (P Q : E.Point) :
    (P + Q).x = (P.x * Q.y + P.y * Q.x) / (1 + E.d * P.x * Q.x * P.y * Q.y) := rfl

@[simp] theorem y_add (P Q : E.Point) :
    (P + Q).y = (P.y * Q.y + P.x * Q.x) / (1 - E.d * P.x * Q.x * P.y * Q.y) := rfl

@[simp] theorem x_zero : (0 : E.Point).x = 0 := rfl

@[simp] theorem y_zero : (0 : E.Point).y = 1 := rfl

@[simp] theorem x_neg (P : E.Point) : (-P).x = -P.x := rfl

@[simp] theorem y_neg (P : E.Point) : (-P).y = P.y := rfl

end EdCurve

end AvbCurve25519
