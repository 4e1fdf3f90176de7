import AvbCurve25519.Ed25519
import AvbCurve25519.Montgomery.XZ

/-!
# X25519

`x25519_scalar_mult_generic` and `x25519_scalar_mult` (`avb_curve25519.c:1814-1902`), with
`fe_cswap` and `fe_mul121666` (`avb_curve25519.c:247-265`). The loop is the Montgomery ladder
over bits 254 down to 0 of the clamped copy `e` of the scalar, with the conditional swap of one
iteration merged into the next through `swap`; `ladderIter_merged_swap` shows that this computes
the plain ladder, which swaps before and after each step. Its eighteen field operations compute
the `xDBL` and `xADD` formulas of `Montgomery.XZ` on Curve25519, with
`121666 = (486662 + 2) / 4` (`ladderstep_eq`).

The loop invariant is the one the code states (`avb_curve25519.c:1852-1857`): before position
`pos`, once unswapped, `(x2 : z2)` and `(x3 : z3)` represent `[r] P` and `[r + 1] P` for
`r = e >> (pos + 1)`. When `x1 = 0` the products `x2 z2` and `x3 z3` stay `0` instead, so the
output is `0`, which is `u([n] P)` for a point of order at most two. Either way the output is
the canonical encoding of `u([clamp(k)] Q)` for every point `Q` whose `u`-coordinate is the
decoded input, and `0` at infinity since `fe_invert(0) = 0`.

The field operations are written over any commutative ring, `Fe` for the code. They commute
with every ring homomorphism (`LadderVars.map`), so the same run read in a field `K ⊇ GF(p)`
is the ladder on the curve over `K`. In the algebraic closure every `u` is the `u`-coordinate
of a point, on Curve25519 or on its quadratic twist, which gives the output for every input
and the Diffie-Hellman symmetry for every base point.
-/

namespace AvbCurve25519

open WeierstrassCurve.Affine

/-! ## The code -/

/-- `fe_cswap` (`avb_curve25519.c:247-259`) on values: `(g, f)` when `b = 1` and `(f, g)` when
`b = 0`. Each limb becomes `f ^ ((f ^ g) & (0 - b))`; the precondition `b ∈ {0, 1}` excludes the
other masks, which would mix the limbs. -/
def feCswap {R : Type*} (f g : R) (b : ℕ) : R × R := if b = 1 then (g, f) else (f, g)

/-- `fe_mul121666` (`avb_curve25519.c:261-265`). Modelled from the spec:
`fiat_25519_carry_scmul_121666` multiplies by `121666` modulo `p`. -/
def feMul121666 {R : Type*} [CommRing R] (f : R) : R := 121666 * f

/-- The field variables `x2`, `z2`, `x3` and `z3` of `x25519_scalar_mult_generic`. -/
structure LadderVars (R : Type*) where
  x2 : R
  z2 : R
  x3 : R
  z3 : R

/-- `fe_cswap(&x2, &x3, b); fe_cswap(&z2, &z3, b);` -/
def LadderVars.cswap {R : Type*} (v : LadderVars R) (b : ℕ) : LadderVars R :=
  ⟨(feCswap v.x2 v.x3 b).1, (feCswap v.z2 v.z3 b).1, (feCswap v.x2 v.x3 b).2,
    (feCswap v.z2 v.z3 b).2⟩

/-- The eighteen field operations of the loop body (`avb_curve25519.c:1871-1888`). -/
def ladderstep {R : Type*} [CommRing R] (x1 : R) (v : LadderVars R) : LadderVars R :=
  let tmp0l := v.x3 - v.z3
  let tmp1l := v.x2 - v.z2
  let x2l := v.x2 + v.z2
  let z2l := v.x3 + v.z3
  let z3 := tmp0l * x2l
  let z2 := z2l * tmp1l
  let tmp0 := tmp1l ^ 2
  let tmp1 := x2l ^ 2
  let x3l := z3 + z2
  let z2l := z3 - z2
  let x2 := tmp1 * tmp0
  let tmp1l := tmp1 - tmp0
  let z2 := z2l ^ 2
  let z3 := feMul121666 tmp1l
  let x3 := x3l ^ 2
  let tmp0l := tmp0 + z3
  let z3 := x1 * z2
  let z2 := tmp1l * tmp0l
  ⟨x2, z2, x3, z3⟩

/-- `b = 1 & (e[pos / 8] >> (pos & 7))`, the bit the loop reads at position `pos`. -/
def ladderBit (e : List UInt8) (pos : ℕ) : ℕ := 1 &&& ((e.getD (pos / 8) 0).toNat >>> (pos &&& 7))

/-- One pass of the loop body (`avb_curve25519.c:1851-1889`) on `x2, z2, x3, z3` and `swap`. -/
def ladderIter {R : Type*} [CommRing R] (x1 : R) (e : List UInt8) (s : LadderVars R × ℕ)
    (pos : ℕ) : LadderVars R × ℕ :=
  let b := ladderBit e pos
  let swap := s.2 ^^^ b
  let v := s.1.cswap swap
  let swap := b
  (ladderstep x1 v, swap)

/-- `x25519_scalar_mult_generic` (`avb_curve25519.c:1814-1896`); the loop runs `pos` from `254`
down to `0`. -/
def x25519ScalarMultGeneric (scalar point : Bytes 32) : Bytes 32 :=
  let e := scalar.set 0 (scalar.get 0 &&& 248)
  let e := e.set 31 (e.get 31 &&& 127)
  let e := e.set 31 (e.get 31 ||| 64)
  let x1 := feFrombytes point.toList
  let s := (List.range 255).reverse.foldl (ladderIter x1 e.toList) (⟨1, 0, x1, 1⟩, 0)
  let v := s.1.cswap s.2
  let z2 := feInvert v.z2
  let x2 := v.x2 * z2
  ⟨feTobytes x2, length_feTobytes x2⟩

/-- `x25519_scalar_mult` (`avb_curve25519.c:1898-1902`). -/
def x25519ScalarMult (scalar point : Bytes 32) : Bytes 32 :=
  x25519ScalarMultGeneric scalar point

/-! ## Curve25519 -/

/-- Curve25519, `v^2 = u^3 + 486662 u^2 + u` over `GF(p)`. -/
abbrev curve25519 : WeierstrassCurve.Affine Fe := montgomery 486662

theorem a_sq_ne_four : (486662 : Fe) ^ 2 ≠ 4 := by decide

theorem curve25519_Δ_ne_zero : curve25519.Δ ≠ 0 :=
  montgomery_Δ_ne_zero two_ne_zero' a_sq_ne_four

/-- The point `(u, v)` of Curve25519. -/
def curve25519Point {u v : Fe} (h : v ^ 2 = u ^ 3 + 486662 * u ^ 2 + u) : curve25519.Point :=
  Point.some (curve25519.nonsingular_of_Δ_ne_zero ((montgomery_equation u v).mpr h)
    curve25519_Δ_ne_zero)

@[simp] theorem uCoord_curve25519Point {u v : Fe} (h : v ^ 2 = u ^ 3 + 486662 * u ^ 2 + u) :
    uCoord (curve25519Point h) = u := rfl

/-! ## The scalar bits -/

/-- The copy `e` of the scalar is the clamped scalar. -/
theorem leValue_clampE (scalar : Bytes 32) :
    leValue (((scalar.set 0 (scalar.get 0 &&& 248)).set 31
      ((scalar.set 0 (scalar.get 0 &&& 248)).get 31 &&& 127)).set 31
      (((scalar.set 0 (scalar.get 0 &&& 248)).set 31
        ((scalar.set 0 (scalar.get 0 &&& 248)).get 31 &&& 127)).get 31 ||| 64)).toList =
      clampScalar scalar.toList := by
  rw [← leValue_clamp scalar.toList_length]
  congr 1
  simp only [Mathlib.Vector.toList_set, get_eq_getD]
  simp [List.getD_eq_getElem?_getD, List.getElem?_set, Fin.coe_ofNat_eq_mod]

theorem clampScalar_lt (scalar : List UInt8) : clampScalar scalar < 2 ^ 255 := by
  have := Nat.mod_lt (leValue (scalar.take 32)) (show 0 < 2 ^ 254 by positivity)
  rw [clampScalar]
  omega

/-- The bit the loop reads at `pos` is bit `pos` of `e`. -/
theorem ladderBit_eq (e : List UInt8) (pos : ℕ) : ladderBit e pos = leValue e / 2 ^ pos % 2 := by
  have h7 : pos &&& 7 = pos % 8 := Nat.and_pow_two_sub_one_eq_mod pos 3
  have hr : pos % 8 < 8 := Nat.mod_lt _ (by norm_num)
  have h256 : (256 : ℕ) = 2 ^ (pos % 8) * 2 ^ (8 - pos % 8) := by
    rw [← pow_add, Nat.add_sub_cancel' hr.le]; rfl
  have hpos : 2 ^ pos = 256 ^ (pos / 8) * 2 ^ (pos % 8) := by
    rw [show (256 : ℕ) = 2 ^ 8 from rfl, ← pow_mul, ← pow_add, Nat.div_add_mod]
  rw [ladderBit, getD_toNat_eq, h7, Nat.shiftRight_eq_div_pow, Nat.one_and_eq_mod_two, hpos,
    ← Nat.div_div_eq_div_mul, h256, Nat.mod_mul_right_div_self,
    Nat.mod_mod_of_dvd _ (dvd_pow_self 2 (by omega))]

theorem ladderBit_le_one (e : List UInt8) (pos : ℕ) : ladderBit e pos ≤ 1 := Nat.and_le_left

/-! ## The ladder step -/

section Swap

variable {R : Type*}

@[simp] theorem LadderVars.cswap_zero (v : LadderVars R) : v.cswap 0 = v := rfl

theorem LadderVars.cswap_one (v : LadderVars R) : v.cswap 1 = ⟨v.x3, v.z3, v.x2, v.z2⟩ := rfl

/-- The merged swap: swapping by `swap ^ b` is swapping by `swap`, then by `b`. -/
theorem LadderVars.cswap_xor (v : LadderVars R) {s b : ℕ} (hs : s ≤ 1) (hb : b ≤ 1) :
    v.cswap (s ^^^ b) = (v.cswap s).cswap b := by
  interval_cases s <;> interval_cases b <;> rfl

end Swap

section Ring

variable {R : Type*} [CommRing R]

/-- The loop body is `xDBL` on `(x2 : z2)` and `xADD` on both pairs, with `x1` the difference. -/
theorem ladderstep_eq (x1 : R) (v : LadderVars R) :
    ladderstep x1 v = ⟨(v.x2 ^ 2 - v.z2 ^ 2) ^ 2,
      4 * v.x2 * v.z2 * (v.x2 ^ 2 + 486662 * v.x2 * v.z2 + v.z2 ^ 2),
      4 * (v.x2 * v.x3 - v.z2 * v.z3) ^ 2, 4 * x1 * (v.x3 * v.z2 - v.x2 * v.z3) ^ 2⟩ := by
  simp only [ladderstep, feMul121666, LadderVars.mk.injEq]
  exact ⟨by ring, by ring, by ring, by ring⟩

/-- The loop over positions `k - 1` down to `0` keeps any invariant indexed by the position. -/
theorem foldl_ladderIter (x1 : R) (e : List UInt8) (I : ℕ → LadderVars R × ℕ → Prop)
    (hstep : ∀ pos s, I (pos + 1) s → I pos (ladderIter x1 e s pos)) :
    ∀ k s, I k s → I 0 ((List.range k).reverse.foldl (ladderIter x1 e) s)
  | 0, _, h => h
  | k + 1, s, h => by
    rw [List.range_succ, List.reverse_append, List.reverse_singleton, List.singleton_append,
      List.foldl_cons]
    exact foldl_ladderIter x1 e I hstep k _ (hstep k s h)

/-- The ladder without the merged swaps: at each position swap by the bit, step, and swap
back. -/
def plainLadderIter (x1 : R) (e : List UInt8) (v : LadderVars R) (pos : ℕ) : LadderVars R :=
  let b := ladderBit e pos
  (ladderstep x1 (v.cswap b)).cswap b

/-- From any state with `swap ≤ 1`, the loop followed by a swap by `swap` is the plain ladder
from the unswapped state. -/
theorem foldl_ladderIter_cswap (x1 : R) (e : List UInt8) :
    ∀ k (s : LadderVars R × ℕ), s.2 ≤ 1 →
      ((List.range k).reverse.foldl (ladderIter x1 e) s).1.cswap
          ((List.range k).reverse.foldl (ladderIter x1 e) s).2 =
        (List.range k).reverse.foldl (plainLadderIter x1 e) (s.1.cswap s.2)
  | 0, _, _ => rfl
  | k + 1, s, hs => by
    simp only [List.range_succ, List.reverse_append, List.reverse_singleton, List.singleton_append,
      List.foldl_cons]
    rw [foldl_ladderIter_cswap x1 e k _ (ladderBit_le_one e k)]
    simp only [ladderIter, plainLadderIter, LadderVars.cswap_xor _ hs (ladderBit_le_one e k)]

/-- The code's merged swaps compute the plain ladder: for every ring, every `x1`, every `e`,
every start and every number of positions, the loop of `x25519_scalar_mult_generic` followed by
its final `fe_cswap` by `swap` equals swapping before and after each step. -/
theorem ladderIter_merged_swap (x1 : R) (e : List UInt8) (v : LadderVars R) (n : ℕ) :
    ((List.range n).reverse.foldl (ladderIter x1 e) (v, 0)).1.cswap
        ((List.range n).reverse.foldl (ladderIter x1 e) (v, 0)).2 =
      (List.range n).reverse.foldl (plainLadderIter x1 e) v :=
  foldl_ladderIter_cswap x1 e n (v, 0) (Nat.zero_le 1)

/-- For `x1 = 0` the step keeps `x2 z2 = 0` and `x3 z3 = 0` (`avb_curve25519.c:1866-1870`). -/
def LadderZero (s : LadderVars R × ℕ) : Prop := s.1.x2 * s.1.z2 = 0 ∧ s.1.x3 * s.1.z3 = 0

theorem LadderZero.cswap {s : LadderVars R × ℕ} (h : LadderZero s) (b : ℕ) :
    (s.1.cswap b).x2 * (s.1.cswap b).z2 = 0 ∧ (s.1.cswap b).x3 * (s.1.cswap b).z3 = 0 := by
  unfold LadderVars.cswap feCswap
  split_ifs
  · exact h.symm
  · exact h

theorem LadderZero.ladderIter {s : LadderVars R × ℕ} (e : List UInt8) (h : LadderZero s)
    (pos : ℕ) : LadderZero (ladderIter 0 e s pos) := by
  have hz := (h.cswap (s.2 ^^^ ladderBit e pos)).1
  simp only [LadderZero, AvbCurve25519.ladderIter, ladderstep_eq, mul_assoc (4 : R), hz]
  simp

theorem ladderZero_loop (e : List UInt8) :
    LadderZero ((List.range 255).reverse.foldl (ladderIter (0 : R) e) (⟨1, 0, 0, 1⟩, 0)) :=
  foldl_ladderIter 0 e (fun _ s => LadderZero s) (fun pos _ h => h.ladderIter e pos) 255 _
    ⟨mul_zero 1, zero_mul 1⟩

end Ring

/-! ## Other fields -/

section Map

variable {R S : Type*} [CommRing R] [CommRing S] (φ : R →+* S)

/-- The variables read in `S` through `φ`. -/
def LadderVars.map (v : LadderVars R) : LadderVars S := ⟨φ v.x2, φ v.z2, φ v.x3, φ v.z3⟩

theorem LadderVars.map_cswap (v : LadderVars R) (b : ℕ) : (v.cswap b).map φ = (v.map φ).cswap b := by
  unfold LadderVars.cswap LadderVars.map feCswap
  split_ifs <;> rfl

theorem LadderVars.map_ladderstep (x1 : R) (v : LadderVars R) :
    (ladderstep x1 v).map φ = ladderstep (φ x1) (v.map φ) := by
  simp only [ladderstep, feMul121666, LadderVars.map, map_mul, map_sub, map_add, map_pow,
    map_ofNat]

/-- The loop commutes with `φ`: the run over `R`, read in `S`, is the run over `S`. -/
theorem LadderVars.map_foldl (x1 : R) (e : List UInt8) (l : List ℕ) (s : LadderVars R × ℕ) :
    Prod.map (LadderVars.map φ) id (l.foldl (ladderIter x1 e) s) =
      l.foldl (ladderIter (φ x1) e) (Prod.map (LadderVars.map φ) id s) :=
  (List.foldl_hom _ _ _ l s fun s pos => by
    simp only [ladderIter, Prod.map, id, LadderVars.map_ladderstep, LadderVars.map_cswap]).symm

end Map

/-! ## The ladder on a Montgomery curve -/

section Curve

variable {K : Type*} [Field K]

/-- `(x2 : z2)` represents `Q` and `(x3 : z3)` represents `R`. -/
def LadderVars.Rep (v : LadderVars K) (Q R : (montgomery (486662 : K)).Point) : Prop :=
  XZRep v.x2 v.z2 Q ∧ XZRep v.x3 v.z3 R

theorem LadderVars.rep_cswap_one {v : LadderVars K} {Q R : (montgomery (486662 : K)).Point} :
    (v.cswap 1).Rep Q R ↔ v.Rep R Q :=
  And.comm

/-- The loop invariant for `x1 ≠ 0` (`avb_curve25519.c:1852-1857`): `swap` is a bit, and once
unswapped, the pairs represent `[r] P` and `[r + 1] P`. -/
def LadderInv (P : (montgomery (486662 : K)).Point) (r : ℕ) (s : LadderVars K × ℕ) : Prop :=
  s.2 ≤ 1 ∧ (s.1.cswap s.2).Rep (r • P) ((r + 1) • P)

variable (h2 : (2 : K) ≠ 0) (hA : (486662 : K) ^ 2 ≠ 4)
include h2 hA

/-- From `Q` and `R` with `u(R - Q) = x1 ≠ 0`, the step computes `Q + Q` and `Q + R`. -/
theorem LadderVars.Rep.ladderstep {v : LadderVars K} {Q R : (montgomery (486662 : K)).Point}
    {x1 : K} (hv : v.Rep Q R) (hRQ : uCoord (R - Q) = x1) (hx1 : x1 ≠ 0) :
    (ladderstep x1 v).Rep (Q + Q) (Q + R) := by
  rw [ladderstep_eq]
  exact ⟨hv.1.dbl h2 hA, hv.1.diffAdd h2 hv.2 hRQ hx1⟩

variable {x1 : K} {e : List UInt8}

/-- One iteration takes `r` to `2 r + b`. -/
theorem LadderInv.ladderIter {P : (montgomery (486662 : K)).Point} {r : ℕ} {s : LadderVars K × ℕ}
    (hP : uCoord P = x1) (hx1 : x1 ≠ 0) (h : LadderInv P r s) (pos : ℕ) :
    LadderInv P (2 * r + ladderBit e pos) (ladderIter x1 e s pos) := by
  obtain ⟨hs, hv⟩ := h
  have hb := ladderBit_le_one e pos
  refine ⟨hb, ?_⟩
  simp only [AvbCurve25519.ladderIter, LadderVars.cswap_xor _ hs hb]
  generalize s.1.cswap s.2 = v at hv
  have hsucc : (r + 1) • P = r • P + P := succ_nsmul P r
  rcases Nat.le_one_iff_eq_zero_or_eq_one.mp hb with hb0 | hb1
  · have h := hv.ladderstep h2 hA (by rw [hsucc, add_sub_cancel_left, hP]) hx1
    rw [← add_nsmul, ← add_nsmul] at h
    rwa [hb0, LadderVars.cswap_zero, LadderVars.cswap_zero, show 2 * r + 0 = r + r by ring,
      show r + r + 1 = r + (r + 1) by ring]
  · have h := (LadderVars.rep_cswap_one.mpr hv).ladderstep h2 hA
      (by rw [hsucc, sub_add_cancel_left, uCoord_neg, hP]) hx1
    rw [← add_nsmul, ← add_nsmul] at h
    rwa [hb1, LadderVars.rep_cswap_one, show 2 * r + 1 + 1 = r + 1 + (r + 1) by ring,
      show 2 * r + 1 = r + 1 + r by ring]

/-- For `x1 = u(P) ≠ 0` and `e < 2^255`, the loop ends with `[e] P` and `[e + 1] P`. -/
theorem ladderInv_loop {P : (montgomery (486662 : K)).Point} (hP : uCoord P = x1) (hx1 : x1 ≠ 0)
    (he : leValue e < 2 ^ 255) :
    LadderInv P (leValue e) ((List.range 255).reverse.foldl (ladderIter x1 e) (⟨1, 0, x1, 1⟩, 0)) := by
  have hP0 : P ≠ 0 := by rintro rfl; exact hx1 hP.symm
  have hrun := foldl_ladderIter x1 e (fun k s => LadderInv P (leValue e / 2 ^ k) s)
    (fun pos s h => ?_) 255 (⟨1, 0, x1, 1⟩, 0) ?_
  · simpa only [pow_zero, Nat.div_one] using hrun
  · have hdiv : 2 * (leValue e / 2 ^ (pos + 1)) + leValue e / 2 ^ pos % 2 = leValue e / 2 ^ pos := by
      rw [pow_succ, ← Nat.div_div_eq_div_mul]; omega
    simpa only [ladderBit_eq, hdiv] using h.ladderIter h2 hA (e := e) hP hx1 pos
  · show LadderInv P (leValue e / 2 ^ 255) _
    rw [Nat.div_eq_of_lt he, LadderInv, LadderVars.cswap_zero, LadderVars.Rep, zero_nsmul, zero_add,
      one_nsmul, XZRep_of_ne_zero hP0, hP, mul_one]
    exact ⟨zero_le_one, ⟨rfl, one_ne_zero⟩, one_ne_zero, rfl⟩

/-- `x2 / z2` after the loop and the last swap: the `u`-coordinate of `[e] Q`, `0` at
infinity. -/
theorem ladder_output (he : leValue e < 2 ^ 255) (Q : (montgomery (486662 : K)).Point) :
    let s := (List.range 255).reverse.foldl (ladderIter (uCoord Q) e) (⟨1, 0, uCoord Q, 1⟩, 0)
    (s.1.cswap s.2).x2 * (s.1.cswap s.2).z2⁻¹ = uCoord (leValue e • Q) := by
  intro s
  by_cases hx1 : uCoord Q = 0
  · have hz := (ladderZero_loop (R := K) e).cswap
      ((List.range 255).reverse.foldl (ladderIter (0 : K) e) (⟨1, 0, 0, 1⟩, 0)).2
    simp only [s, hx1, uCoord_nsmul_eq_zero hx1]
    rcases mul_eq_zero.mp hz.1 with h0 | h0
    · rw [h0, zero_mul]
    · rw [h0, inv_zero, mul_zero]
  · exact (ladderInv_loop h2 hA rfl hx1 he).2.1.div_eq

end Curve

/-! ## The result -/

section Embedding

variable {K : Type*} [Field K]

theorem two_ne_zero_of_hom (φ : Fe →+* K) : (2 : K) ≠ 0 := by
  rw [← map_ofNat φ 2]; exact (map_ne_zero φ).mpr two_ne_zero'

theorem a_sq_ne_four_of_hom (φ : Fe →+* K) : (486662 : K) ^ 2 ≠ 4 :=
  fun h => a_sq_ne_four (φ.injective (by rw [map_pow, map_ofNat, map_ofNat]; exact h))

variable (φ : Fe →+* K)

/-- The output is the canonical encoding of the element it decodes to. -/
theorem x25519ScalarMultGeneric_canonical (scalar point : Bytes 32) :
    (x25519ScalarMultGeneric scalar point).toList =
      feTobytes (feFrombytes (x25519ScalarMultGeneric scalar point).toList) := by
  simp only [x25519ScalarMultGeneric, Mathlib.Vector.toList_mk, feFrombytes_feTobytes]

/-- Read in any field `K` that `GF(p)` maps into, the output of `x25519_scalar_mult_generic` is
`u([clamp(k)] Q)` for every point `Q` of the curve over `K` whose `u`-coordinate is the decoded
input. -/
theorem x25519ScalarMultGeneric_map (scalar point : Bytes 32)
    {Q : (montgomery (486662 : K)).Point} (hQ : uCoord Q = φ (feFrombytes point.toList)) :
    φ (feFrombytes (x25519ScalarMultGeneric scalar point).toList) =
      uCoord (clampScalar scalar.toList • Q) := by
  have he := leValue_clampE scalar
  have hinit : Prod.map (LadderVars.map φ) id
      ((⟨1, 0, feFrombytes point.toList, 1⟩ : LadderVars Fe), 0) =
        (⟨1, 0, φ (feFrombytes point.toList), 1⟩, 0) := by
    simp [LadderVars.map]
  rw [← he, ← ladder_output (two_ne_zero_of_hom φ) (a_sq_ne_four_of_hom φ)
    (by rw [he]; exact clampScalar_lt _) Q, hQ, ← hinit, ← LadderVars.map_foldl]
  simp only [x25519ScalarMultGeneric, Mathlib.Vector.toList_mk, feFrombytes_feTobytes, feInvert_eq,
    map_mul, map_inv₀, Prod.map_fst, Prod.map_snd, id, ← LadderVars.map_cswap]
  rfl

/-- Diffie-Hellman: for point bytes that decode to the `u`-coordinate of a point over `K`, the
two orders of applying `x25519_scalar_mult` agree, as `[a] [b] Q = [b] [a] Q`. -/
theorem x25519ScalarMult_swap (a b point : Bytes 32) {Q : (montgomery (486662 : K)).Point}
    (hQ : uCoord Q = φ (feFrombytes point.toList)) :
    x25519ScalarMult a (x25519ScalarMult b point) = x25519ScalarMult b (x25519ScalarMult a point) := by
  have hdec : ∀ k : Bytes 32, uCoord (clampScalar k.toList • Q) =
      φ (feFrombytes (x25519ScalarMult k point).toList) := fun k =>
    (x25519ScalarMultGeneric_map φ k point hQ).symm
  have hval : feFrombytes (x25519ScalarMult a (x25519ScalarMult b point)).toList =
      feFrombytes (x25519ScalarMult b (x25519ScalarMult a point)).toList := by
    apply φ.injective
    rw [x25519ScalarMult, x25519ScalarMultGeneric_map φ a _ (hdec b), x25519ScalarMult,
      x25519ScalarMultGeneric_map φ b _ (hdec a), smul_smul, smul_smul, mul_comm]
  apply Mathlib.Vector.toList_injective
  simp only [x25519ScalarMult] at hval ⊢
  rw [x25519ScalarMultGeneric_canonical a, hval, ← x25519ScalarMultGeneric_canonical b]

/-- The clamped scalar is a multiple of the cofactor `8`. -/
theorem eight_dvd_clampScalar (h : List UInt8) : 8 ∣ clampScalar h :=
  Nat.dvd_add (Nat.dvd_mul_left _ _) (by norm_num)

/-- Clamping clears bits `0`-`2`, so X25519 sends every point of order dividing `8`, on
Curve25519 or on its twist, to the all-zero string, whatever the scalar. -/
theorem x25519ScalarMult_low_order (k u : Bytes 32) {Q : (montgomery (486662 : K)).Point}
    (hQ : uCoord Q = φ ((leValue u.toList % 2 ^ 255 : ℕ) : Fe)) (h8 : 8 • Q = 0) :
    (x25519ScalarMult k u).toList = List.replicate 32 0 := by
  obtain ⟨m, hm⟩ := eight_dvd_clampScalar k.toList
  have h := x25519ScalarMultGeneric_map φ k u (by rw [hQ, feFrombytes_eq _ u.toList_length])
  rw [hm, mul_nsmul, h8, smul_zero, uCoord_zero, map_eq_zero] at h
  rw [x25519ScalarMult, x25519ScalarMultGeneric_canonical, h]
  decide

end Embedding

/-- `x25519_scalar_mult_generic` writes the canonical encoding of `u([clamp(k)] Q)` for every
point `Q` of Curve25519 whose `u`-coordinate is the decoded input, including `Q = 0` with
`u = 0`. -/
theorem x25519ScalarMultGeneric_toList (scalar point : Bytes 32) {Q : curve25519.Point}
    (hQ : uCoord Q = feFrombytes point.toList) :
    (x25519ScalarMultGeneric scalar point).toList =
      feTobytes (uCoord (clampScalar scalar.toList • Q)) := by
  rw [x25519ScalarMultGeneric_canonical,
    ← x25519ScalarMultGeneric_map (RingHom.id Fe) scalar point hQ]
  rfl

/-- The base point `u = 9` lies on Curve25519. -/
theorem nine_on_curve :
    (14781619447589544791020593568409986887264606134616475288964881837755586237401 : Fe) ^ 2 =
      9 ^ 3 + 486662 * 9 ^ 2 + 9 := by
  decide

/-- For a `u` whose value, bit 255 cleared and reduced modulo `p`, is the `u`-coordinate of a
point `P = (u, v)` of Curve25519, `x25519_scalar_mult_generic` writes the canonical encoding of
`u([clamp(k)] P)`, which is `0` when `[clamp(k)] P` is the point at infinity; and
`X25519(a, X25519(b, 9)) = X25519(b, X25519(a, 9))` for all `a` and `b`. -/
theorem x25519ScalarMultGeneric_spec (k u : Bytes 32) (v : Fe)
    (hv : v ^ 2 = ((leValue u.toList % 2 ^ 255 : ℕ) : Fe) ^ 3 +
      486662 * ((leValue u.toList % 2 ^ 255 : ℕ) : Fe) ^ 2 + ((leValue u.toList % 2 ^ 255 : ℕ) : Fe)) :
    (x25519ScalarMultGeneric k u).toList =
        feTobytes (uCoord (clampScalar k.toList • curve25519Point hv)) ∧
      (clampScalar k.toList • curve25519Point hv = 0 →
        (x25519ScalarMultGeneric k u).toList = List.replicate 32 0) ∧
      ∀ a b : Bytes 32, x25519ScalarMult a (x25519ScalarMult b ⟨leBytes 32 9, length_leBytes 32 9⟩) =
        x25519ScalarMult b (x25519ScalarMult a ⟨leBytes 32 9, length_leBytes 32 9⟩) := by
  have h := x25519ScalarMultGeneric_toList k u (Q := curve25519Point hv)
    (by rw [uCoord_curve25519Point, feFrombytes_eq _ u.toList_length])
  refine ⟨h, fun h0 => by rw [h, h0, uCoord_zero]; decide, fun a b => ?_⟩
  exact x25519ScalarMult_swap (RingHom.id Fe) a b _ (Q := curve25519Point nine_on_curve) (by decide)

theorem x25519ScalarMultGeneric_nine :
    ∃ h : (14781619447589544791020593568409986887264606134616475288964881837755586237401 : Fe) ^ 2 =
      ((leValue (leBytes 32 9) % 2 ^ 255 : ℕ) : Fe) ^ 3 +
        486662 * ((leValue (leBytes 32 9) % 2 ^ 255 : ℕ) : Fe) ^ 2 +
        ((leValue (leBytes 32 9) % 2 ^ 255 : ℕ) : Fe),
      (x25519ScalarMultGeneric ⟨List.replicate 32 0, List.length_replicate 32 0⟩
          ⟨leBytes 32 9, length_leBytes 32 9⟩).toList =
        feTobytes (uCoord (clampScalar (List.replicate 32 0) • curve25519Point h)) :=
  ⟨_, (x25519ScalarMultGeneric_spec ⟨List.replicate 32 0, List.length_replicate 32 0⟩
    ⟨leBytes 32 9, length_leBytes 32 9⟩ _ (by decide)).1⟩

/-! ## Every input -/

/-- In the algebraic closure of `GF(p)` every `u` is the `u`-coordinate of a point of
`v^2 = u^3 + 486662 u^2 + u`: of Curve25519 when `u^3 + 486662 u^2 + u` is a square in `GF(p)`,
of its quadratic twist otherwise. -/
theorem exists_uCoord_eq_closure (x : Fe) :
    ∃ Q : (montgomery (486662 : AlgebraicClosure Fe)).Point,
      uCoord Q = algebraMap Fe (AlgebraicClosure Fe) x := by
  set u := algebraMap Fe (AlgebraicClosure Fe) x
  obtain ⟨v, hv⟩ := IsAlgClosed.exists_pow_nat_eq (u ^ 3 + 486662 * u ^ 2 + u) two_pos
  exact ⟨Point.some ((montgomery _).nonsingular_of_Δ_ne_zero ((montgomery_equation u v).mpr hv)
    (montgomery_Δ_ne_zero (two_ne_zero_of_hom (algebraMap Fe _))
      (a_sq_ne_four_of_hom (algebraMap Fe _)))), rfl⟩

/-- For every scalar `k` and every 32-byte `u`, `x25519_scalar_mult_generic` writes the
canonical encoding of an element `w` of `GF(p)` that is, in the algebraic closure, the
`u`-coordinate of `[clamp(k)] Q` for a point `Q` whose `u`-coordinate is the decoded `u`. -/
theorem x25519ScalarMultGeneric_closure (k u : Bytes 32) :
    ∃ Q : (montgomery (486662 : AlgebraicClosure Fe)).Point,
      uCoord Q = algebraMap Fe _ ((leValue u.toList % 2 ^ 255 : ℕ) : Fe) ∧
      ∃ w : Fe, (x25519ScalarMultGeneric k u).toList = feTobytes w ∧
        algebraMap Fe _ w = uCoord (clampScalar k.toList • Q) := by
  obtain ⟨Q, hQ⟩ := exists_uCoord_eq_closure (feFrombytes u.toList)
  exact ⟨Q, by rw [hQ, feFrombytes_eq _ u.toList_length], _,
    x25519ScalarMultGeneric_canonical k u, x25519ScalarMultGeneric_map _ k u hQ⟩

/-- At `u = 0`, the point `(0, 0)` of order two. -/
theorem x25519ScalarMult_low_order_zero :
    ∃ h : (0 : Fe) ^ 2 = 0 ^ 3 + 486662 * 0 ^ 2 + 0,
      uCoord (curve25519Point h) = RingHom.id Fe ((leValue (List.replicate 32 0) % 2 ^ 255 : ℕ) : Fe) ∧
        8 • curve25519Point h = 0 ∧
        (x25519ScalarMult ⟨List.replicate 32 0, List.length_replicate 32 0⟩
          ⟨List.replicate 32 0, List.length_replicate 32 0⟩).toList = List.replicate 32 0 := by
  have h : (0 : Fe) ^ 2 = 0 ^ 3 + 486662 * 0 ^ 2 + 0 := by norm_num
  have hQ : uCoord (curve25519Point h) =
      RingHom.id Fe ((leValue (List.replicate 32 0) % 2 ^ 255 : ℕ) : Fe) := by
    rw [uCoord_curve25519Point]; decide
  have h8 : 8 • curve25519Point h = 0 := by
    rw [show (8 : ℕ) = 4 * 2 from rfl, mul_nsmul', two_nsmul,
      add_self_eq_zero_of_uCoord_eq_zero (uCoord_curve25519Point h), nsmul_zero]
  exact ⟨h, hQ, h8, x25519ScalarMult_low_order (RingHom.id Fe) _ _ hQ h8⟩

/-- Diffie-Hellman for every base point: `X25519(a, X25519(b, u)) = X25519(b, X25519(a, u))`
for all 32-byte `a`, `b` and `u`, twist points included. -/
theorem x25519ScalarMult_comm (a b u : Bytes 32) :
    x25519ScalarMult a (x25519ScalarMult b u) = x25519ScalarMult b (x25519ScalarMult a u) := by
  obtain ⟨Q, hQ⟩ := exists_uCoord_eq_closure (feFrombytes u.toList)
  exact x25519ScalarMult_swap _ a b u hQ

end AvbCurve25519
