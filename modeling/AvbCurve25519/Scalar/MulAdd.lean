import AvbCurve25519.Scalar.Reduce
import Mathlib.Algebra.Order.BigOperators.Group.List

/-!
# `sc_muladd`

`sc_muladd` (`avb_curve25519.c:1271-1752`) reads three 32-byte scalars into twelve limbs
each, forms the 23 limbs of `a * b + c` by schoolbook multiplication, propagates rounding
carries once over every limb, and then runs the same fold, carry and packing blocks as
`x25519_sc_reduce`. `scMuladd_eq` shows that it writes `(a * b + c) mod l`;
`scReduce_scMuladd_safe` that neither function overflows `int64_t`, hands
`int64_lshift21` a carry of `2^42` or more, or packs a negative limb.
-/

namespace AvbCurve25519

open LimbOp

/-- The limbs `x0 … x11` that `sc_muladd` reads from a 32-byte scalar
(`avb_curve25519.c:1275-1310`); the top limb keeps 25 bits. -/
def scLoad32 (s : List UInt8) : List ℤ :=
  [(2097151 &&& load3 s 0 : ℕ), (2097151 &&& (load4 s 2 >>> 5) : ℕ),
    (2097151 &&& (load3 s 5 >>> 2) : ℕ), (2097151 &&& (load4 s 7 >>> 7) : ℕ),
    (2097151 &&& (load4 s 10 >>> 4) : ℕ), (2097151 &&& (load3 s 13 >>> 1) : ℕ),
    (2097151 &&& (load4 s 15 >>> 6) : ℕ), (2097151 &&& (load3 s 18 >>> 3) : ℕ),
    (2097151 &&& load3 s 21 : ℕ), (2097151 &&& (load4 s 23 >>> 5) : ℕ),
    (2097151 &&& (load3 s 26 >>> 2) : ℕ), (load4 s 28 >>> 7 : ℕ)]

/-- The indices `i` of the products `a_i * b_(k-i)` summed into `s_k`, in source order. -/
def mulIdx (k : ℕ) : List ℕ := (List.range 12).filter fun i => i ≤ k && k - i < 12

/-- The products summed into `s_k` (`avb_curve25519.c:1358-1397`). -/
def mulRow (a b : List ℤ) (k : ℕ) : List ℤ :=
  (mulIdx k).map fun i => getAt a i * getAt b (k - i)

/-- `s_k = c_k + a_0 * b_k + a_1 * b_(k-1) + …`, added left to right. Above `s11` the
source has no `c` term; `getAt c k` reads `0` there. -/
def mulAddRow (a b c : List ℤ) (k : ℕ) : ℤ := (mulRow a b k).foldl (· + ·) (getAt c k)

/-- The limbs `s0 … s23` after the product, with `s23 = 0` (`avb_curve25519.c:1358-1398`). -/
def mulAddInit (a b c : List ℤ) : List ℤ := (List.range 23).map (mulAddRow a b c) ++ [0]

/-- Every `int64_t` value the product computes: each product and each partial sum. -/
def mulAddValues (a b c : List ℤ) : List ℤ :=
  (List.range 23).flatMap fun k => mulRow a b k ++ (mulRow a b k).scanl (· + ·) (getAt c k)

/-- The rounding carries over the even limbs `0 … 22`, then the odd limbs `1 … 21`
(`avb_curve25519.c:1400-1466`). -/
def scMuladdCarries : List LimbOp :=
  (List.range 12).map (fun i => carryRound (2 * i)) ++
    (List.range 11).map (fun i => carryRound (2 * i + 1))

/-- All the blocks of `sc_muladd`, in order: the remaining blocks are those of
`x25519_sc_reduce` (`avb_curve25519.c:1468-1717`). -/
def scMuladdOps : List LimbOp := scMuladdCarries ++ scReduceOps

/-- `sc_muladd` (`avb_curve25519.c:1271-1752`). -/
def scMuladd (a b c : Bytes 32) : Bytes 32 :=
  ⟨scPack (runLimbs scMuladdOps (mulAddInit (scLoad32 a.toList) (scLoad32 b.toList)
    (scLoad32 c.toList))), by simp [scPack]⟩

/-! ## Loading -/

/-- The twelve limbs are the radix-`2^21` digits of the scalar. -/
theorem scLoad32_eq {s : List UInt8} (hs : s.length = 32) :
    scLoad32 s = digits21 11 (leValue s) := by
  have hV := leValue_lt s
  rw [hs] at hV
  have h0 := mask_load3 s 0 0 (by norm_num)
  have h8 := mask_load3 s 21 0 (by norm_num)
  simp only [Nat.shiftRight_zero] at h0 h8
  simp only [scLoad32, digits21, h0, h8,
    load4_shiftRight_top (show leValue s < 2 ^ (8 * 28 + 32) by norm_num at hV ⊢; exact hV),
    mask_load3 s _ _ (by norm_num : 1 ≤ 3),
    mask_load3 s _ _ (by norm_num : 2 ≤ 3), mask_load3 s _ _ (by norm_num : 3 ≤ 3),
    mask_load4 s _ _ (by norm_num : 4 ≤ 11), mask_load4 s _ _ (by norm_num : 5 ≤ 11),
    mask_load4 s _ _ (by norm_num : 6 ≤ 11), mask_load4 s _ _ (by norm_num : 7 ≤ 11),
    Nat.div_div_eq_div_mul, ← pow_add, Nat.reduceAdd, Nat.reduceMul, pow_zero, Nat.div_one]

theorem scLoad32_inItv {s : List UInt8} (hs : s.length = 32) :
    InItv (scLoad32 s) (digitItvs 11 33554431) := by
  rw [scLoad32_eq hs]
  apply inItv_digits21
  have := leValue_lt s
  rw [hs] at this
  have : leValue s / 2 ^ 231 < 2 ^ 25 := by
    rw [Nat.div_lt_iff_lt_mul (by positivity)]; norm_num at this ⊢; omega
  norm_num at this ⊢; omega

/-! ## The product -/

/-- The product limbs of three 12-limb inputs carry the value `a * b + c`. -/
theorem limbValue_mulAddInit (A B C : ℕ) :
    limbValue (mulAddInit (digits21 11 A) (digits21 11 B) (digits21 11 C)) = A * B + C := by
  rw [← limbValue_digits21 11 A, ← limbValue_digits21 11 B, ← limbValue_digits21 11 C]
  simp only [digits21, mulAddInit, mulAddRow, mulRow, mulIdx, List.range_succ, List.range_zero,
    List.nil_append, List.cons_append, List.filter, List.map, List.foldl, getAt, List.getD_cons_succ,
    List.getD_cons_zero, List.getD_nil, Nat.reduceSub, Nat.sub_self, limbValue_cons, limbValue_nil]
  ring

/-- `0 ≤ a_i ≤ A_i` for every limb. -/
def LimbsLe (a A : List ℤ) : Prop := ∀ i, 0 ≤ getAt a i ∧ getAt a i ≤ getAt A i

theorem limbsLe_of_inItv {a : List ℤ} {I : List Itv} (h : InItv a I) (hlo : ∀ J ∈ I, J.lo = 0) :
    LimbsLe a (I.map Itv.hi) := fun i => by
  have hm := h.mem i
  simp only [itvAt, getAt, List.getD_eq_getElem?_getD, List.getElem?_map] at hm ⊢
  rcases hi : I[i]? with _ | J
  · simpa [hi] using hm
  · simp only [hi, Option.getD_some, Option.map_some'] at hm ⊢
    exact ⟨hlo J (List.getElem?_mem hi) ▸ hm.1, hm.2⟩

private theorem foldl_add_eq (x : ℤ) (l : List ℤ) : l.foldl (· + ·) x = x + l.sum := by
  induction l generalizing x with
  | nil => simp
  | cons t l ih => rw [List.foldl_cons, ih, List.sum_cons, add_assoc]

/-- Every partial sum of non-negative terms lies between the start and the total. -/
private theorem mem_scanl_add {x : ℤ} {l : List ℤ} (hl : ∀ t ∈ l, 0 ≤ t) :
    ∀ y ∈ l.scanl (· + ·) x, x ≤ y ∧ y ≤ l.foldl (· + ·) x := by
  induction l generalizing x with
  | nil => simp
  | cons t l ih =>
    intro y hy
    have ht := hl t (List.mem_cons_self t l)
    simp only [List.scanl_cons, List.mem_append, List.mem_singleton] at hy
    rcases hy with rfl | hy
    · rw [foldl_add_eq]
      exact ⟨le_rfl, le_add_of_nonneg_right (List.sum_nonneg hl)⟩
    · have := ih (fun t ht => hl t (List.mem_cons_of_mem _ ht)) y hy
      exact ⟨by linarith [this.1], this.2⟩

theorem getAt_mulAddInit (a b c : List ℤ) (k : ℕ) :
    getAt (mulAddInit a b c) k = if k < 23 then mulAddRow a b c k else 0 := by
  simp only [getAt, mulAddInit, List.getD_eq_getElem?_getD]
  split_ifs with hk
  · rw [List.getElem?_append_left (by simpa using hk)]
    simp [hk]
  · rw [List.getElem?_append_right (by simpa using hk)]
    cases k - List.length _ <;> rfl

theorem itvAt_map_zero (L : List ℤ) (k : ℕ) :
    itvAt (L.map fun h => ⟨0, h⟩) k = ⟨0, getAt L k⟩ := by
  simp only [itvAt, getAt, List.getD_eq_getElem?_getD, List.getElem?_map]
  cases L[k]? <;> rfl

section Bounds

variable {a b c A B C : List ℤ} (ha : LimbsLe a A) (hb : LimbsLe b B) (hc : LimbsLe c C)
include ha hb

theorem mulRow_nonneg (k : ℕ) : ∀ x ∈ mulRow a b k, 0 ≤ x := by
  simp only [mulRow, List.mem_map]
  rintro _ ⟨i, -, rfl⟩
  exact mul_nonneg (ha i).1 (hb (k - i)).1

theorem sum_mulRow_le (k : ℕ) : (mulRow a b k).sum ≤ (mulRow A B k).sum :=
  List.sum_le_sum fun i _ => mul_le_mul (ha i).2 (hb (k - i)).2 (hb (k - i)).1
    ((ha i).1.trans (ha i).2)

include hc

theorem mulAddRow_bounds (k : ℕ) : 0 ≤ mulAddRow a b c k ∧ mulAddRow a b c k ≤ mulAddRow A B C k := by
  simp only [mulAddRow, foldl_add_eq]
  exact ⟨add_nonneg (hc k).1 (List.sum_nonneg (mulRow_nonneg ha hb k)),
    add_le_add (hc k).2 (sum_mulRow_le ha hb k)⟩

/-- The product limbs lie in `[0, h_k]`, where `h_k` is the product of the bounds. -/
theorem mulAddInit_inItv :
    InItv (mulAddInit a b c) ((mulAddInit A B C).map fun h => ⟨0, h⟩) := by
  refine ⟨by simp [mulAddInit], fun k => ?_⟩
  rw [itvAt_map_zero, getAt_mulAddInit, getAt_mulAddInit]
  split_ifs
  · exact mulAddRow_bounds ha hb hc k
  · exact ⟨le_rfl, le_rfl⟩

/-- Every product and partial sum lies in `[0, h_k]`. -/
theorem mulAddValues_bounds :
    ∀ x ∈ mulAddValues a b c, ∃ k, 0 ≤ x ∧ x ≤ mulAddRow A B C k ∧ k < 23 := by
  simp only [mulAddValues, List.mem_flatMap, List.mem_range, List.mem_append]
  rintro x ⟨k, hk, hx | hx⟩
  · have hrow := mulAddRow_bounds ha hb hc k
    refine ⟨k, mulRow_nonneg ha hb k x hx, le_trans ?_ hrow.2, hk⟩
    rw [mulAddRow, foldl_add_eq]
    linarith [List.single_le_sum (mulRow_nonneg ha hb k) x hx, (hc k).1]
  · have := mem_scanl_add (mulRow_nonneg ha hb k) x hx
    exact ⟨k, (hc k).1.trans this.1, this.2.trans (mulAddRow_bounds ha hb hc k).2, hk⟩

end Bounds

/-! ## Correctness and safety -/

/-- The limb bounds of a 32-byte scalar: `2^21 - 1`, the top limb `2^25 - 1`. -/
def scLoadBounds : List ℤ := (digitItvs 11 33554431).map Itv.hi

/-- The intervals of the product limbs of three 32-byte scalars. -/
def mulAddItvs : List Itv :=
  (mulAddInit scLoadBounds scLoadBounds scLoadBounds).map fun h => ⟨0, h⟩

theorem scLoad32_limbsLe (s : Bytes 32) : LimbsLe (scLoad32 s.toList) scLoadBounds :=
  limbsLe_of_inItv (scLoad32_inItv s.toList_length) (by decide)

/-- Every product of three 32-byte scalars passes the interval check of `sc_muladd`. -/
theorem scMuladd_tailCheck : tailCheck (scMuladdCarries ++ scReduceHead) mulAddItvs = true := by
  decide

theorem mulAddInit_inItv_scLoad32 (a b c : Bytes 32) :
    InItv (mulAddInit (scLoad32 a.toList) (scLoad32 b.toList) (scLoad32 c.toList)) mulAddItvs :=
  mulAddInit_inItv (scLoad32_limbsLe a) (scLoad32_limbsLe b) (scLoad32_limbsLe c)

theorem scMuladdOps_eq : scMuladdOps = (scMuladdCarries ++ scReduceHead) ++ scTailOps := by
  rw [scMuladdOps, scReduceOps, List.append_assoc]

theorem scMuladd_toList (a b c : Bytes 32) :
    (scMuladd a b c).toList =
      leBytes 32 ((leValue a.toList * leValue b.toList + leValue c.toList) % orderL) := by
  show scPack _ = _
  rw [scMuladdOps_eq, scPack_runLimbs_eq (mulAddInit_inItv_scLoad32 a b c) (by simp [mulAddInit])
    scMuladd_tailCheck]
  rw [scLoad32_eq a.toList_length, scLoad32_eq b.toList_length, scLoad32_eq c.toList_length,
    limbValue_mulAddInit]
  push_cast; rfl

/-- `sc_muladd` writes `(a * b + c) mod l`, which is below `l`. -/
theorem scMuladd_eq (a b c : Bytes 32) :
    (scMuladd a b c).toList =
        leBytes 32 ((leValue a.toList * leValue b.toList + leValue c.toList) % orderL) ∧
      leValue (scMuladd a b c).toList < orderL := by
  refine ⟨scMuladd_toList a b c, ?_⟩
  rw [scMuladd_toList, leValue_leBytes]
  exact lt_of_le_of_lt (Nat.mod_le _ _) (Nat.mod_lt _ (by norm_num [orderL]))

/-- What `sc_muladd` needs of its arithmetic: the loaded limbs, every product and every
partial sum fit `int64_t`, and the blocks after the product are `ScSafe`. -/
structure MulAddSafe (a b c : List ℤ) : Prop where
  loads : ∀ x ∈ a ++ b ++ c, InInt64 x
  products : ∀ x ∈ mulAddValues a b c, InInt64 x
  blocks : ScSafe scMuladdOps (mulAddInit a b c)

/-- Neither `x25519_sc_reduce` nor `sc_muladd` overflows `int64_t`, hands `int64_lshift21`
a carry of `2^42` or more, or packs a negative limb, on any input. -/
theorem scReduce_scMuladd_safe :
    (∀ s : Bytes 64, ScSafe scReduceOps (scReduceLoad s.toList)) ∧
      ∀ a b c : Bytes 32, MulAddSafe (scLoad32 a.toList) (scLoad32 b.toList) (scLoad32 c.toList) := by
  refine ⟨scReduceOps_scSafe, fun a b c => ⟨?_, ?_, ?_⟩⟩
  · have hfit : ∀ J ∈ digitItvs 11 33554431, J.fits = true := by decide
    intro x hx
    simp only [List.mem_append] at hx
    rcases hx with (hx | hx) | hx
    · exact (scLoad32_inItv a.toList_length).inInt64 hfit x hx
    · exact (scLoad32_inItv b.toList_length).inInt64 hfit x hx
    · exact (scLoad32_inItv c.toList_length).inInt64 hfit x hx
  · have hrow : ∀ k < 23, mulAddRow scLoadBounds scLoadBounds scLoadBounds k < int64End := by
      decide
    intro x hx
    obtain ⟨k, h0, hle, hk⟩ :=
      mulAddValues_bounds (scLoad32_limbsLe a) (scLoad32_limbsLe b) (scLoad32_limbsLe c) x hx
    exact ⟨le_trans (by decide) h0, lt_of_le_of_lt hle (hrow k hk)⟩
  · rw [scMuladdOps_eq]
    exact scSafe_of_tailCheck (mulAddInit_inItv_scLoad32 a b c) (by simp [mulAddInit])
      scMuladd_tailCheck (by decide)

end AvbCurve25519
