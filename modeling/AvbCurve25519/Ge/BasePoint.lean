import AvbCurve25519.Ge.Scalarmult
import AvbCurve25519.Scalar.Limbs

/-!
# The order of the base point

`x25519_ge_scalarmult` (`avb_curve25519.c:753-803`), run on the base point `B` in affine
form and the little-endian bytes of `l`, ends at a projective point `(0 : Y : Y)`: the
identity, so `[l] B = 0`. The run is evaluated in two halves of 32 rounds, the first ending at
`orderLHalf`. As `l` is odd and `B ≠ 0`, `[2^256] B ≠ 0`.
-/

namespace AvbCurve25519

/-- Rounds `start, start + 4, ..., start + 124` of `x25519_ge_scalarmult` from `r`. -/
def scalarmultHalf (scalar : List UInt8) (A : GeP3) (start : ℕ) (r : GeP2) : Option GeP2 := do
  let tables ← scalarmultTables A
  (List.range' start 32 4).foldlM (scalarmultRound scalar tables.1) r

/-- The 64 rounds are the 32 from `0` followed by the 32 from `128`. -/
theorem x25519GeScalarmult_halves {scalar : List UInt8} {A : GeP3} {r : GeP2}
    (h : scalarmultHalf scalar A 0 geP20 = some r) :
    x25519GeScalarmult scalar A = scalarmultHalf scalar A 128 r := by
  unfold scalarmultHalf at h ⊢
  rw [x25519GeScalarmult]
  cases ht : scalarmultTables A with
  | none => rw [ht] at h; exact absurd h nofun
  | some t =>
    rw [ht] at h
    change (List.range' 0 32 4).foldlM (scalarmultRound scalar t.1) geP20 = some r at h
    change (List.range' 0 64 4).foldlM (scalarmultRound scalar t.1) geP20 =
      (List.range' 128 32 4).foldlM (scalarmultRound scalar t.1) r
    rw [← List.range'_append 0 32 32 4, List.foldlM_append, h]
    rfl

/-- A run that comes out as the four Bool comparisons with `q` came out as `q`. -/
theorem eq_some_of_coords {o : Option GeP2} {q : GeP2}
    (h : o.map (fun r => decide (r.X = q.X) && decide (r.Y = q.Y) && decide (r.Z = q.Z)) =
      some true) : o = some q := by
  obtain ⟨r, rfl, hr⟩ := Option.map_eq_some'.1 h
  simp only [Bool.and_eq_true, decide_eq_true_eq] at hr
  obtain ⟨⟨hX, hY⟩, hZ⟩ := hr
  cases r; cases q
  simp_all

/-- A projective point `(0 : Y : Y)` is the identity. -/
theorem eq_zero_of_rep {r : GeP2} {P : ed25519.Point} (h : r.Rep P) (hX : r.X = 0)
    (hY : r.Y = r.Z) : P = 0 := by
  have hx : P.x * r.Z = 0 := h.X_eq ▸ hX
  have hy : P.y * r.Z = 1 * r.Z := by rw [← h.Y_eq, hY, one_mul]
  ext
  · exact (mul_eq_zero.1 hx).resolve_right h.Z_ne
  · exact mul_right_cancel₀ h.Z_ne hy

/-- If the second half of the run ends at `(0 : Y : Y)`, the scalar kills `P`. -/
theorem smul_eq_zero_of_halves {A : GeP3} {P : ed25519.Point} (hA : A.Rep P)
    {scalar : List UInt8} (hs : scalar.length = 32) {r₁ : GeP2}
    (h₁ : scalarmultHalf scalar A 0 geP20 = some r₁)
    (h₂ : (scalarmultHalf scalar A 128 r₁).map (fun r => decide (r.X = 0) && decide (r.Y = r.Z)) =
      some true) :
    leValue scalar • P = 0 := by
  obtain ⟨r, hr, hrep⟩ := x25519GeScalarmult_rep hA ⟨scalar, hs⟩
  change x25519GeScalarmult scalar A = some r at hr
  rw [x25519GeScalarmult_halves h₁] at hr
  rw [hr] at h₂
  simp only [Option.map_some', Option.some.injEq, Bool.and_eq_true, decide_eq_true_eq] at h₂
  exact eq_zero_of_rep hrep h₂.1 h₂.2

/-- The accumulator of `x25519_ge_scalarmult` on `B` and `l` after the rounds `0, ..., 124`. -/
def orderLHalf : GeP2 :=
  ⟨40733462491854968792736207227183360639464808175450921996339673264711153562796,
    11885545641746532703035199779684927222252219226019827303833843200722498593098,
    21959434299244579478207211696334730357407693456195774138935298395773421174444⟩

set_option maxRecDepth 100000 in
theorem scalarmultHalf_orderL_low :
    (scalarmultHalf (leBytes 32 orderL) ⟨basePoint.x, basePoint.y, 1, basePoint.x * basePoint.y⟩
      0 geP20).map (fun r => decide (r.X = orderLHalf.X) && decide (r.Y = orderLHalf.Y) &&
        decide (r.Z = orderLHalf.Z)) = some true := by
  decide

set_option maxRecDepth 100000 in
theorem scalarmultHalf_orderL_high :
    (scalarmultHalf (leBytes 32 orderL) ⟨basePoint.x, basePoint.y, 1, basePoint.x * basePoint.y⟩
      128 orderLHalf).map (fun r => decide (r.X = 0) && decide (r.Y = r.Z)) = some true := by
  decide

/-- `B` has order dividing `l`. -/
theorem orderL_smul_basePoint : orderL • basePoint = 0 := by
  have h := smul_eq_zero_of_halves (GeP3.rep_affine basePoint) (length_leBytes 32 orderL)
    (eq_some_of_coords scalarmultHalf_orderL_low) scalarmultHalf_orderL_high
  rwa [leValue_leBytes, Nat.mod_eq_of_lt (by norm_num [orderL])] at h

theorem basePoint_ne_zero : basePoint ≠ 0 := fun h => by
  have hx := congrArg EdCurve.Point.x h
  rw [EdCurve.x_zero] at hx
  exact absurd hx (by decide)

/-- A point killed by two coprime scalars is the identity. -/
theorem eq_zero_of_coprime_smul {m n : ℕ} (hmn : m.Coprime n) {P : ed25519.Point}
    (hm : m • P = 0) (hn : n • P = 0) : P = 0 := by
  have h := Nat.dvd_gcd (addOrderOf_dvd_of_nsmul_eq_zero hm) (addOrderOf_dvd_of_nsmul_eq_zero hn)
  rwa [hmn.gcd_eq_one, Nat.dvd_one, AddMonoid.addOrderOf_eq_one_iff] at h

/-- `[2^256] B ≠ 0`, as `l` is odd. -/
theorem two_pow_256_smul_basePoint_ne_zero : 2 ^ 256 • basePoint ≠ 0 := fun h =>
  basePoint_ne_zero (eq_zero_of_coprime_smul (Nat.Coprime.pow_right 256 (by decide))
    orderL_smul_basePoint h)

end AvbCurve25519
