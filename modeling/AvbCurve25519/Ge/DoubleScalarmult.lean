import AvbCurve25519.Ge.BasePoint
import AvbCurve25519.Ge.Slide

/-!
# Double scalar multiplication: `ge_double_scalarmult_vartime`

`ge_double_scalarmult_vartime` (`avb_curve25519.c:839-912`) computes `[a] A + [b] B` from the
`slide` digits of both scalars. `Ai[k]` holds `[2 k + 1] A`; `Bi[k]`, the precomputed form of
`[2 k + 1] B`, is a table of `curve25519_tables_32.h`, which is not among the sources, and is
a parameter here. The code skips the positions above the highest nonzero digit and then,
from there down to `0`, doubles and adds or subtracts the entries the two digits select.

Each round is one digit step `P ↦ 2 P + d_a A + d_b B` (`dsmRound_rep`), and the rounds from
position `n` down leave `∑_{k ≥ n} 2^(k - n) (d_a k A + d_b k B)` in the accumulator
(`dsmRounds_rep`). Whatever the scalars, the digits of `slide` select only entries that were
written, and the result is `[∑ r_a[k] 2^k] A + [∑ r_b[k] 2^k] B`. For scalars with bit 255
clear that is `[a] A + [b] B`; for `a = 2^256 - 1` the carry `slide` loses makes it
`[-1] A + [b] B` (`geDoubleScalarmultVartime_loses_carry`).
-/

namespace AvbCurve25519

open Finset

/-! ## The code -/

/-- `Ai[k]` (`avb_curve25519.c:855-883`): `Ai[0]` is `A` and `Ai[k + 1]` is `A2 + Ai[k]`,
where `A2` is `A` doubled. -/
def dsmOddMultiple (A A2 : GeP3) : ℕ → GeCached
  | 0 => x25519GeP3ToCached A
  | k + 1 => x25519GeP3ToCached (x25519GeP1p1ToP3 (x25519GeAdd A2 (dsmOddMultiple A A2 k)))

/-- The table `Ai` (`avb_curve25519.c:855-883`). -/
def dsmTable (A : GeP3) : List GeCached :=
  let A2 := x25519GeP1p1ToP3 (geP3Dbl A)
  (List.range 8).map (dsmOddMultiple A A2)

/-- The first loop (`avb_curve25519.c:887-891`) over the positions below `n`: one more than
the highest position where a digit is nonzero, and `0` where there is none (the loop then
leaves `i = -1`). -/
def dsmTop (aslide bslide : ℕ → ℤ) : ℕ → ℕ
  | 0 => 0
  | n + 1 => if aslide n ≠ 0 ∨ bslide n ≠ 0 then n + 1 else dsmTop aslide bslide n

/-- Round `i` of the main loop (`avb_curve25519.c:893-911`). -/
def dsmRound (aslide bslide : ℕ → ℤ) (Ai : List GeCached) (Bi : List GePrecomp) (r : GeP2)
    (i : ℕ) : GeP2 :=
  let t := geP2Dbl r
  let t :=
    if aslide i > 0 then
      x25519GeAdd (x25519GeP1p1ToP3 t) (Ai.getD ((aslide i).toNat / 2) geCached0)
    else if aslide i < 0 then
      x25519GeSub (x25519GeP1p1ToP3 t) (Ai.getD ((-aslide i).toNat / 2) geCached0)
    else t
  let t :=
    if bslide i > 0 then
      geMadd (x25519GeP1p1ToP3 t) (Bi.getD ((bslide i).toNat / 2) gePrecomp0)
    else if bslide i < 0 then
      geMsub (x25519GeP1p1ToP3 t) (Bi.getD ((-bslide i).toNat / 2) gePrecomp0)
    else t
  x25519GeP1p1ToP2 t

/-- The rounds at positions `n - 1` down to `0`. -/
def dsmRounds (aslide bslide : ℕ → ℤ) (Ai : List GeCached) (Bi : List GePrecomp) :
    ℕ → GeP2 → GeP2
  | 0, r => r
  | n + 1, r => dsmRounds aslide bslide Ai Bi n (dsmRound aslide bslide Ai Bi r n)

/-- `ge_double_scalarmult_vartime` (`avb_curve25519.c:839-912`), over the table `Bi`. -/
def geDoubleScalarmultVartime (Bi : List GePrecomp) (a : List UInt8) (A : GeP3)
    (b : List UInt8) : GeP2 :=
  let aslide := slide a
  let bslide := slide b
  let Ai := dsmTable A
  dsmRounds aslide bslide Ai Bi (dsmTop aslide bslide 256) geP20

/-! ## The table -/

variable {PA PB : ed25519.Point}

theorem dsmOddMultiple_rep {A : GeP3} (hA : A.Rep PA) (k : ℕ) :
    (dsmOddMultiple A (x25519GeP1p1ToP3 (geP3Dbl A)) k).Rep ((2 * k + 1) • PA) := by
  induction k with
  | zero => rw [dsmOddMultiple, mul_zero, zero_add, one_nsmul]; exact hA.toCached
  | succ k ih =>
    have h := (rep_x25519GeAdd (rep_geP3Dbl hA).toP3 ih).toP3.toCached
    rwa [← two_nsmul, ← add_nsmul, show 2 + (2 * k + 1) = 2 * (k + 1) + 1 by ring] at h

/-- `Ai[k]` is `[2 k + 1] A`. -/
theorem dsmTable_rep {A : GeP3} (hA : A.Rep PA) {k : ℕ} (hk : k < 8) :
    ((dsmTable A).getD k geCached0).Rep ((2 * k + 1) • PA) := by
  simp only [dsmTable, List.getD_eq_getElem?_getD, List.getElem?_map, List.getElem?_range hk,
    Option.map_some', Option.getD_some]
  exact dsmOddMultiple_rep hA k

/-- A table `Bi` for a point `B`: `[2 k + 1] B` for `k < 8`, in `ge_precomp` form. -/
def oddMultiplesTable (B : ed25519.Point) : List GePrecomp :=
  (List.range 8).map fun k => GePrecomp.ofPoint ((2 * k + 1) • B)

theorem oddMultiplesTable_rep (B : ed25519.Point) :
    ∀ k < 8, ((oddMultiplesTable B).getD k gePrecomp0).Rep ((2 * k + 1) • B) := fun k hk => by
  simp only [oddMultiplesTable, List.getD_eq_getElem?_getD, List.getElem?_map,
    List.getElem?_range hk, Option.map_some', Option.getD_some]
  exact GePrecomp.rep_ofPoint _

/-! ## One round -/

/-- A digit of `slide`: zero, or odd with `|d| ≤ 15`. -/
def SlideDigit (d : ℤ) : Prop := d = 0 ∨ (d % 2 = 1 ∧ -15 ≤ d ∧ d ≤ 15)

/-- The table index `d / 2` of a positive digit is below `8`, and entry `d / 2` is `[d]`. -/
theorem SlideDigit.index {d : ℤ} (hd : SlideDigit d) (hpos : 0 < d) :
    d.toNat / 2 < 8 ∧ ((2 * (d.toNat / 2) + 1 : ℕ) : ℤ) = d := by
  unfold SlideDigit at hd; omega

/-- The negation of a digit is a digit. -/
theorem SlideDigit.neg {d : ℤ} (hd : SlideDigit d) : SlideDigit (-d) := by
  unfold SlideDigit at hd ⊢; omega

/-- One digit step of a round: add or subtract the entry for `|d|` of a table of odd
multiples, or nothing for `d = 0`. The same for `x25519_ge_add` / `x25519_ge_sub` on `Ai`
and `ge_madd` / `ge_msub` on `Bi`. -/
theorem digitStep_rep {α : Type} (R : α → ed25519.Point → Prop) (add sub : GeP3 → α → GeP1p1)
    (hadd : ∀ {p q P Q}, GeP3.Rep p P → R q Q → (add p q).Rep (P + Q))
    (hsub : ∀ {p q P Q}, GeP3.Rep p P → R q Q → (sub p q).Rep (P - Q))
    (tbl : ℕ → α) (htbl : ∀ k < 8, R (tbl k) ((2 * k + 1) • PA)) {t : GeP1p1}
    {Q : ed25519.Point} (ht : t.Rep Q) {d : ℤ} (hd : SlideDigit d) :
    (if d > 0 then add (x25519GeP1p1ToP3 t) (tbl (d.toNat / 2))
      else if d < 0 then sub (x25519GeP1p1ToP3 t) (tbl ((-d).toNat / 2))
      else t).Rep (Q + d • PA) := by
  split_ifs with hpos hneg
  · obtain ⟨hk, hval⟩ := hd.index hpos
    have h := hadd ht.toP3 (htbl _ hk)
    rwa [← natCast_zsmul, hval] at h
  · obtain ⟨hk, hval⟩ := hd.neg.index (by omega)
    have h := hsub ht.toP3 (htbl _ hk)
    rwa [← natCast_zsmul, hval, neg_zsmul, sub_neg_eq_add] at h
  · obtain rfl : d = 0 := by omega
    rwa [zero_zsmul, add_zero]

variable {aslide bslide : ℕ → ℤ} {Ai : List GeCached} {Bi : List GePrecomp}

/-- A round doubles the accumulator and adds `d_a A + d_b B`. -/
theorem dsmRound_rep (hA : ∀ k < 8, (Ai.getD k geCached0).Rep ((2 * k + 1) • PA))
    (hB : ∀ k < 8, (Bi.getD k gePrecomp0).Rep ((2 * k + 1) • PB)) {r : GeP2} {P : ed25519.Point}
    (hr : r.Rep P) {i : ℕ} (hda : SlideDigit (aslide i)) (hdb : SlideDigit (bslide i)) :
    (dsmRound aslide bslide Ai Bi r i).Rep (P + P + aslide i • PA + bslide i • PB) :=
  (digitStep_rep GePrecomp.Rep geMadd geMsub rep_geMadd rep_geMsub (fun k => Bi.getD k gePrecomp0)
    hB (digitStep_rep GeCached.Rep x25519GeAdd x25519GeSub rep_x25519GeAdd rep_x25519GeSub
      (fun k => Ai.getD k geCached0) hA (rep_geP2Dbl hr) hda) hdb).toP2

/-! ## The rounds -/

/-- The digits at positions `n` and above, as the scalar they stand for there. -/
def dsmScalar (d : ℕ → ℤ) (n : ℕ) : ℤ := ∑ k in Ico n 256, d k * 2 ^ (k - n)

theorem dsmScalar_succ (d : ℕ → ℤ) {n : ℕ} (hn : n < 256) :
    dsmScalar d n = 2 * dsmScalar d (n + 1) + d n := by
  rw [dsmScalar, dsmScalar, Finset.sum_eq_sum_Ico_succ_bot hn, Nat.sub_self, pow_zero, mul_one,
    add_comm, Finset.mul_sum]
  congr 1
  refine Finset.sum_congr rfl fun k hk => ?_
  rw [show k - n = k - (n + 1) + 1 by have := (mem_Ico.mp hk).1; omega, pow_succ]
  ring

theorem dsmScalar_zero (d : ℕ → ℤ) : dsmScalar d 0 = digitsValue d := by
  rw [dsmScalar, digitsValue, ← Finset.range_eq_Ico]
  rfl

/-- Above the position the first loop stops at, both digits are zero. -/
theorem dsmTop_spec (aslide bslide : ℕ → ℤ) (n : ℕ) :
    dsmTop aslide bslide n ≤ n ∧
      ∀ k, dsmTop aslide bslide n ≤ k → k < n → aslide k = 0 ∧ bslide k = 0 := by
  induction n with
  | zero => exact ⟨le_rfl, fun k _ hk => absurd hk (Nat.not_lt_zero k)⟩
  | succ n ih =>
    rw [dsmTop]
    split_ifs with h
    · exact ⟨le_rfl, fun k hk hk' => by omega⟩
    · refine ⟨by omega, fun k hk hk' => ?_⟩
      rcases Nat.lt_or_ge k n with hkn | hkn
      · exact ih.2 k hk hkn
      · rw [show k = n by omega]; push_neg at h; exact h

theorem dsmScalar_top (d : ℕ → ℤ) {n : ℕ} (h : ∀ k, n ≤ k → k < 256 → d k = 0) :
    dsmScalar d n = 0 :=
  Finset.sum_eq_zero fun k hk => by
    rw [h k (mem_Ico.mp hk).1 (mem_Ico.mp hk).2, zero_mul]

/-- The rounds from position `n` down carry `[dsmScalar d_a n] A + [dsmScalar d_b n] B` to
the same at `0`. -/
theorem dsmRounds_rep (hA : ∀ k < 8, (Ai.getD k geCached0).Rep ((2 * k + 1) • PA))
    (hB : ∀ k < 8, (Bi.getD k gePrecomp0).Rep ((2 * k + 1) • PB))
    (hda : ∀ k < 256, SlideDigit (aslide k)) (hdb : ∀ k < 256, SlideDigit (bslide k)) :
    ∀ n ≤ 256, ∀ r : GeP2, r.Rep (dsmScalar aslide n • PA + dsmScalar bslide n • PB) →
      (dsmRounds aslide bslide Ai Bi n r).Rep
        (dsmScalar aslide 0 • PA + dsmScalar bslide 0 • PB)
  | 0, _, _, hr => hr
  | n + 1, hn, r, hr => by
    refine dsmRounds_rep hA hB hda hdb n (by omega) _ ?_
    have h := dsmRound_rep hA hB hr (hda n (by omega)) (hdb n (by omega))
    rw [dsmScalar_succ aslide (show n < 256 by omega), dsmScalar_succ bslide (by omega)]
    convert h using 1
    simp only [add_zsmul, two_mul]
    abel

/-- A 32-byte scalar whose top byte is at most `127` is below `2^255`. -/
theorem leValue_lt_of_top {s : List UInt8} (hs : s.length = 32) (h : (s.getD 31 0).toNat ≤ 127) :
    leValue s < 2 ^ 255 := by
  have h1 := leValue_div_top hs
  have h2 := (Nat.div_lt_iff_lt_mul (by positivity)).mp (show leValue s / 256 ^ 31 < 128 by omega)
  norm_num at h2 ⊢
  exact h2

/-- Whatever the scalar, the digits of `slide` are zero or odd with `|r[i]| ≤ 15`, so a nonzero
digit indexes `Ai` at `|r[i]| / 2 < 8`, and that entry is `[|r[i]|] A`. With bit 255 clear
(`a[31] ≤ 127`) the digits also add up to the scalar. -/
theorem slide_digits_select (a : Bytes 32) (A : GeP3) (hA : A.Valid) :
    (∀ i < 256, SlideDigit (slide a.toList i) ∧ (slide a.toList i ≠ 0 →
        (slide a.toList i).natAbs / 2 < 8 ∧
          ((dsmTable A).getD ((slide a.toList i).natAbs / 2) geCached0).Rep
            ((slide a.toList i).natAbs • A.toPoint hA))) ∧
      ((a.toList.getD 31 0).toNat ≤ 127 → digitsValue (slide a.toList) = leValue a.toList) := by
  refine ⟨fun i hi => ⟨slide_digits a.toList i hi, fun hnz => ?_⟩,
    fun ha => (slide_spec a.toList (leValue_lt_of_top a.toList_length ha)).1⟩
  have hk : (slide a.toList i).natAbs / 2 < 8 ∧
      2 * ((slide a.toList i).natAbs / 2) + 1 = (slide a.toList i).natAbs := by
    have := slide_digits a.toList i hi; omega
  have h := dsmTable_rep (GeP3.rep_toPoint hA) hk.1
  rw [hk.2] at h
  exact ⟨hk.1, h⟩

/-- The digits of the scalar `5`, read against the table of the base point. -/
theorem slide_digits_select_five :
    ((leBytes 32 5).getD 31 0).toNat ≤ 127 ∧
      digitsValue (slide (leBytes 32 5)) = leValue (leBytes 32 5) :=
  ⟨by decide, (slide_digits_select ⟨leBytes 32 5, length_leBytes 32 5⟩ _
    (GeP3.rep_affine basePoint).valid).2 (by decide)⟩

/-- Whatever the scalars, for a point `A` of `PA` and a table `Bi` of `[2 k + 1] PB`,
`ge_double_scalarmult_vartime` returns a projective point for the values of the digits of
`slide`: `[∑ r_a[k] 2^k] PA + [∑ r_b[k] 2^k] PB`. -/
theorem geDoubleScalarmultVartime_rep_digits {Bi : List GePrecomp}
    (hB : ∀ k < 8, (Bi.getD k gePrecomp0).Rep ((2 * k + 1) • PB)) (a b : List UInt8) {A : GeP3}
    (hA : A.Rep PA) :
    (geDoubleScalarmultVartime Bi a A b).Rep
      (digitsValue (slide a) • PA + digitsValue (slide b) • PB) := by
  have htop := dsmTop_spec (slide a) (slide b) 256
  have h := dsmRounds_rep (fun k hk => dsmTable_rep hA hk) hB (slide_digits a) (slide_digits b)
    _ htop.1 geP20 (by
      rw [dsmScalar_top _ fun k hk hk' => (htop.2 k hk hk').1,
        dsmScalar_top _ fun k hk hk' => (htop.2 k hk hk').2, zero_zsmul, zero_zsmul, add_zero]
      exact GeP2.rep_geP20)
  rwa [dsmScalar_zero, dsmScalar_zero] at h

/-- For scalars below `2^255`, a point `A` for `PA` and a table `Bi` of `[2 k + 1] PB`,
`ge_double_scalarmult_vartime` returns a projective point for `[a] PA + [b] PB`. -/
theorem geDoubleScalarmultVartime_rep {Bi : List GePrecomp}
    (hB : ∀ k < 8, (Bi.getD k gePrecomp0).Rep ((2 * k + 1) • PB)) {a b : List UInt8}
    (ha : leValue a < 2 ^ 255) (hb : leValue b < 2 ^ 255) {A : GeP3} (hA : A.Rep PA) :
    (geDoubleScalarmultVartime Bi a A b).Rep (leValue a • PA + leValue b • PB) := by
  have h := geDoubleScalarmultVartime_rep_digits hB a b hA
  rwa [(slide_spec a ha).1, (slide_spec b hb).1, natCast_zsmul, natCast_zsmul] at h

/-- For scalars whose top byte is at most `127` (every scalar reduced mod `l` is one), a
valid `A` and a table `Bi` of the odd multiples `[2 k + 1] B`, `ge_double_scalarmult_vartime`
returns a projective point for `[a] A + [b] B`. On the way `Ai[k]` is `[2 k + 1] A`, and
every table index the digits select is below `8`. -/
theorem geDoubleScalarmultVartime_spec (Bi : List GePrecomp) (B : ed25519.Point)
    (hB : ∀ k < 8, (Bi.getD k gePrecomp0).Rep ((2 * k + 1) • B)) (a b : Bytes 32)
    (ha : (a.toList.getD 31 0).toNat ≤ 127) (hb : (b.toList.getD 31 0).toNat ≤ 127) (A : GeP3)
    (hA : A.Valid) :
    (geDoubleScalarmultVartime Bi a.toList A b.toList).Rep
        (leValue a.toList • A.toPoint hA + leValue b.toList • B) ∧
      (∀ k < 8, ((dsmTable A).getD k geCached0).Rep ((2 * k + 1) • A.toPoint hA)) ∧
      ∀ i < 256, (0 < slide a.toList i → (slide a.toList i).toNat / 2 < 8) ∧
        (slide a.toList i < 0 → (-slide a.toList i).toNat / 2 < 8) ∧
        (0 < slide b.toList i → (slide b.toList i).toNat / 2 < 8) ∧
        (slide b.toList i < 0 → (-slide b.toList i).toNat / 2 < 8) := by
  have hda : ∀ k < 256, SlideDigit (slide a.toList k) := slide_digits a.toList
  have hdb : ∀ k < 256, SlideDigit (slide b.toList k) := slide_digits b.toList
  exact ⟨geDoubleScalarmultVartime_rep hB (leValue_lt_of_top a.toList_length ha)
    (leValue_lt_of_top b.toList_length hb) (GeP3.rep_toPoint hA),
    fun k hk => dsmTable_rep (GeP3.rep_toPoint hA) hk,
    fun i hi => ⟨fun hp => ((hda i hi).index hp).1, fun hn => ((hda i hi).neg.index (by omega)).1,
      fun hp => ((hdb i hi).index hp).1, fun hn => ((hdb i hi).neg.index (by omega)).1⟩⟩

/-- `ge_double_scalarmult_vartime` at the scalars `5` and `3`, the base point in affine form
and the table of its odd multiples. -/
theorem geDoubleScalarmultVartime_basePoint :
    (geDoubleScalarmultVartime (oddMultiplesTable basePoint) (leBytes 32 5)
        ⟨basePoint.x, basePoint.y, 1, basePoint.x * basePoint.y⟩ (leBytes 32 3)).Rep
      (leValue (leBytes 32 5) • basePoint + leValue (leBytes 32 3) • basePoint) := by
  have h := (geDoubleScalarmultVartime_spec (oddMultiplesTable basePoint) basePoint
    (oddMultiplesTable_rep basePoint) ⟨leBytes 32 5, length_leBytes 32 5⟩
    ⟨leBytes 32 3, length_leBytes 32 3⟩ (by decide) (by decide) _
    (GeP3.rep_affine basePoint).valid).1
  rwa [(GeP3.rep_affine basePoint).toPoint_eq] at h

/-! ## A scalar with bit 255 set -/

/-- For `a = 2^256 - 1` (every byte `0xff`) and `b = 3`, on the base point and the table of its
odd multiples, `ge_double_scalarmult_vartime` returns `[-1] B + [3] B = [2] B`, not the
`[a] B + [b] B = [2^256 + 2] B` its comment promises: the carry `slide` loses is worth
`[2^256] B ≠ 0`. -/
theorem geDoubleScalarmultVartime_loses_carry :
    (geDoubleScalarmultVartime (oddMultiplesTable basePoint) (List.replicate 32 255)
        ⟨basePoint.x, basePoint.y, 1, basePoint.x * basePoint.y⟩ (leBytes 32 3)).Rep
      (2 • basePoint) ∧
    ¬(geDoubleScalarmultVartime (oddMultiplesTable basePoint) (List.replicate 32 255)
        ⟨basePoint.x, basePoint.y, 1, basePoint.x * basePoint.y⟩ (leBytes 32 3)).Rep
      (leValue (List.replicate 32 255) • basePoint + leValue (leBytes 32 3) • basePoint) := by
  obtain ⟨-, hva, hv⟩ := slide_loses_carry
  have h3 : leValue (leBytes 32 3) = 3 := by rw [leValue_leBytes]; norm_num
  have hvb := (slide_spec (leBytes 32 3) (by rw [h3]; norm_num)).1
  have h := geDoubleScalarmultVartime_rep_digits (oddMultiplesTable_rep basePoint)
    (List.replicate 32 255) (leBytes 32 3) (GeP3.rep_affine basePoint)
  have h2 : (-1 : ℤ) • basePoint + ((3 : ℕ) : ℤ) • basePoint = 2 • basePoint := by
    rw [natCast_zsmul, neg_one_zsmul, show 3 = 1 + 2 from rfl, add_nsmul, one_nsmul,
      neg_add_cancel_left]
  rw [hva, hvb, h3, h2] at h
  refine ⟨h, fun h' => two_pow_256_smul_basePoint_ne_zero ?_⟩
  have heq := h.unique h'
  rw [hv, h3, ← add_nsmul, show 2 ^ 256 - 1 + 3 = 2 ^ 256 + 2 by norm_num, add_nsmul] at heq
  exact self_eq_add_left.1 heq

end AvbCurve25519
