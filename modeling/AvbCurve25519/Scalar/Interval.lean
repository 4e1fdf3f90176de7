import AvbCurve25519.Scalar.Limbs

/-!
# Interval bounds for the limb arithmetic

An interval per limb, pushed through the blocks of `LimbOp` (`LimbOp.absExec`), with a
Boolean check (`LimbOp.absSafe`) that every value a block computes fits in `int64_t` and
every carry handed to `int64_lshift21` is below `2^42` in absolute value. The check is run
by the kernel on the fixed block sequences of `x25519_sc_reduce` and `sc_muladd`;
`absCheck_sound` turns its success into the same facts about every concrete run whose
starting limbs lie in the starting intervals.
-/

namespace AvbCurve25519

/-- A closed interval `[lo, hi]`. -/
structure Itv where
  lo : ℤ
  hi : ℤ
  deriving DecidableEq, Repr

namespace Itv

/-- `x ∈ [lo, hi]`. -/
def Mem (x : ℤ) (I : Itv) : Prop := I.lo ≤ x ∧ x ≤ I.hi

/-- Interval sum. -/
def add (a b : Itv) : Itv := ⟨a.lo + b.lo, a.hi + b.hi⟩

/-- Interval of `x * c` for `x ∈ a`. -/
def scale (a : Itv) (c : ℤ) : Itv :=
  if 0 ≤ c then ⟨a.lo * c, a.hi * c⟩ else ⟨a.hi * c, a.lo * c⟩

/-- Interval of `x >> 21`. -/
def shr21 (a : Itv) : Itv := ⟨Int.shiftRight a.lo 21, Int.shiftRight a.hi 21⟩

/-- Every value of the interval is an `int64_t`. -/
def fits (a : Itv) : Bool := decide (int64Min ≤ a.lo) && decide (a.hi < int64End)

theorem mem_add {x y : ℤ} {a b : Itv} (hx : Mem x a) (hy : Mem y b) : Mem (x + y) (add a b) :=
  ⟨add_le_add hx.1 hy.1, add_le_add hx.2 hy.2⟩

theorem mem_scale {x : ℤ} {a : Itv} (hx : Mem x a) (c : ℤ) : Mem (x * c) (scale a c) := by
  unfold scale Mem
  split_ifs with hc
  · exact ⟨mul_le_mul_of_nonneg_right hx.1 hc, mul_le_mul_of_nonneg_right hx.2 hc⟩
  · exact ⟨mul_le_mul_of_nonpos_right hx.2 (by omega), mul_le_mul_of_nonpos_right hx.1 (by omega)⟩

theorem mem_shr21 {x : ℤ} {a : Itv} (hx : Mem x a) : Mem (Int.shiftRight x 21) (shr21 a) := by
  simp only [Mem, shr21, ← Int.shiftRight_eq, Int.shiftRight_eq_div_pow]
  exact ⟨Int.ediv_le_ediv (by norm_num) hx.1, Int.ediv_le_ediv (by norm_num) hx.2⟩

/-- Interval meet. -/
def meet (a b : Itv) : Itv := ⟨max a.lo b.lo, min a.hi b.hi⟩

theorem mem_meet {x : ℤ} {a b : Itv} (ha : Mem x a) (hb : Mem x b) : Mem x (meet a b) :=
  ⟨max_le ha.1 hb.1, le_min ha.2 hb.2⟩

theorem inInt64_of_fits {x : ℤ} {a : Itv} (hx : Mem x a) (h : fits a = true) : InInt64 x := by
  simp only [fits, Bool.and_eq_true, decide_eq_true_eq] at h
  exact ⟨h.1.trans hx.1, lt_of_le_of_lt hx.2 h.2⟩

end Itv

/-- The interval of limb `i` (`[0, 0]` past the end, as `getAt` reads `0` there). -/
def itvAt (I : List Itv) (i : ℕ) : Itv := I.getD i ⟨0, 0⟩

/-- Every limb lies in its interval. -/
def InItv (s : List ℤ) (I : List Itv) : Prop :=
  s.length = I.length ∧ ∀ i, Itv.Mem (getAt s i) (itvAt I i)

theorem InItv.mem {s : List ℤ} {I : List Itv} (h : InItv s I) (i : ℕ) :
    Itv.Mem (getAt s i) (itvAt I i) := h.2 i

theorem InItv.cons {x : ℤ} {J : Itv} {s : List ℤ} {I : List Itv} (hx : Itv.Mem x J)
    (h : InItv s I) : InItv (x :: s) (J :: I) :=
  ⟨by simp [h.1], fun i => by
    cases i with
    | zero => exact hx
    | succ i => exact h.mem i⟩

/-- Limbs in intervals that fit `int64_t` fit `int64_t`. -/
theorem InItv.inInt64 {s : List ℤ} {I : List Itv} (h : InItv s I) (hfit : ∀ J ∈ I, J.fits = true) :
    ∀ x ∈ s, InInt64 x := by
  intro x hx
  obtain ⟨i, hi, rfl⟩ := List.mem_iff_getElem.mp hx
  have hiI : i < I.length := h.1 ▸ hi
  have hm := h.mem i
  simp only [getAt, itvAt, List.getD_eq_getElem?_getD, List.getElem?_eq_getElem hi,
    List.getElem?_eq_getElem hiI, Option.getD_some] at hm
  exact Itv.inInt64_of_fits hm (hfit _ (List.getElem_mem hiI))

theorem itvAt_set {I : List Itv} {i : ℕ} (hi : i < I.length) (J : Itv) (k : ℕ) :
    itvAt (I.set i J) k = if k = i then J else itvAt I k := by
  simp only [itvAt, List.getD_eq_getElem?_getD, List.getElem?_set]
  by_cases hk : k = i
  · subst hk; simp [hi]
  · simp [Ne.symm hk, hk]

theorem InItv.addAt {s : List ℤ} {I : List Itv} (h : InItv s I) {i : ℕ} (hi : i < s.length)
    {c : ℤ} {J : Itv} (hJ : Itv.Mem (getAt s i + c) J) : InItv (addAt s i c) (I.set i J) := by
  refine ⟨by simp [h.1], fun k => ?_⟩
  rw [getAt_addAt _ hi, itvAt_set (h.1 ▸ hi)]
  split_ifs with hk
  · exact hk ▸ hJ
  · exact h.mem k

/-- Abstract `addMultiples`. -/
def absAddMultiples (I : List Itv) (i : ℕ) (V : Itv) : List ℤ → List Itv
  | [] => I
  | c :: cs => absAddMultiples (I.set i ((itvAt I i).add (V.scale c))) (i + 1) V cs

/-- Abstract `applyCarry`: `C` bounds the carry, `R` the remainder left in limb `i`. -/
def absApplyCarry (I : List Itv) (i : ℕ) (C R : Itv) : List Itv :=
  (I.set (i + 1) ((itvAt I (i + 1)).add C)).set i (((itvAt I i).add (C.scale (-2 ^ 21))).meet R)

@[simp] theorem length_absAddMultiples (I : List Itv) (i : ℕ) (V : Itv) (cs : List ℤ) :
    (absAddMultiples I i V cs).length = I.length := by
  induction cs generalizing I i <;> simp [absAddMultiples, *]

theorem InItv.addMultiples {s : List ℤ} {I : List Itv} (h : InItv s I) {v : ℤ} {V : Itv}
    (hv : Itv.Mem v V) (i : ℕ) (cs : List ℤ) (hlen : i + cs.length ≤ s.length) :
    InItv (addMultiples s i v cs) (absAddMultiples I i V cs) := by
  induction cs generalizing s I i with
  | nil => exact h
  | cons c cs ih =>
    simp only [List.length_cons] at hlen
    exact ih (h.addAt (by omega) (Itv.mem_add (h.mem i) (Itv.mem_scale hv c))) (i + 1)
      (by simp; omega)

/-- The remainder of a floor carry lies in `[0, 2^21)`. -/
theorem sub_shiftRight_floor (x : ℤ) :
    Itv.Mem (x - Int.shiftRight x 21 * 2 ^ 21) ⟨0, 2 ^ 21 - 1⟩ := by
  simp only [Itv.Mem, ← Int.shiftRight_eq, Int.shiftRight_eq_div_pow]
  omega

/-- The remainder of a rounded carry lies in `[-2^20, 2^20)`. -/
theorem sub_shiftRight_round (x : ℤ) :
    Itv.Mem (x - Int.shiftRight (x + 2 ^ 20) 21 * 2 ^ 21) ⟨-2 ^ 20, 2 ^ 20 - 1⟩ := by
  simp only [Itv.Mem, ← Int.shiftRight_eq, Int.shiftRight_eq_div_pow]
  omega

/-- The limb left after taking out `c * 2^21`. -/
theorem InItv.mem_sub_mul {s : List ℤ} {I : List Itv} (h : InItv s I) (i : ℕ) {c : ℤ} {C : Itv}
    (hc : Itv.Mem c C) : Itv.Mem (getAt s i - c * 2 ^ 21) ((itvAt I i).add (C.scale (-2 ^ 21))) := by
  have hm := Itv.mem_add (h.mem i) (Itv.mem_scale hc (-2 ^ 21))
  rwa [show getAt s i + c * -2 ^ 21 = getAt s i - c * 2 ^ 21 by ring] at hm

theorem InItv.applyCarry {s : List ℤ} {I : List Itv} (h : InItv s I) {i : ℕ}
    (hi : i + 1 < s.length) {c : ℤ} {C R : Itv} (hc : Itv.Mem c C) (hc1 : -2 ^ 42 ≤ c)
    (hc2 : c < 2 ^ 42) (hR : Itv.Mem (getAt s i - c * 2 ^ 21) R) :
    InItv (LimbOp.applyCarry s i c) (absApplyCarry I i C R) := by
  have h1 := h.addAt hi (Itv.mem_add (h.mem (i + 1)) hc)
  refine h1.addAt (by simp; omega) ?_
  rw [getAt_addAt _ hi, if_neg (by omega), int64Lshift21_eq hc1 hc2, ← sub_eq_add_neg]
  exact Itv.mem_meet (h.mem_sub_mul i hc) hR

namespace LimbOp

/-- The interval of the carry a block computes. -/
def absCarry : LimbOp → List Itv → Itv
  | fold _, _ => ⟨0, 0⟩
  | carryRound i, I => ((itvAt I i).add ⟨2 ^ 20, 2 ^ 20⟩).shr21
  | carryFloor i, I => (itvAt I i).shr21

/-- A block on intervals. -/
def absExec : LimbOp → List Itv → List Itv
  | fold j, I => (absAddMultiples I (j - 12) (itvAt I j) foldCoeffs).set j ⟨0, 0⟩
  | carryRound i, I => absApplyCarry I i ((carryRound i).absCarry I) ⟨-2 ^ 20, 2 ^ 20 - 1⟩
  | carryFloor i, I => absApplyCarry I i ((carryFloor i).absCarry I) ⟨0, 2 ^ 21 - 1⟩

/-- The intervals of the values a block computes, in the order of `LimbOp.values`. -/
def absValues : LimbOp → List Itv → List Itv
  | fold j, I => (List.range 6).flatMap fun k =>
      [(itvAt I j).scale |foldCoeffs.getD k 0|,
        (itvAt I (j - 12 + k)).add ((itvAt I j).scale (foldCoeffs.getD k 0))]
  | carryRound i, I => let C := (carryRound i).absCarry I
      [(itvAt I i).add ⟨2 ^ 20, 2 ^ 20⟩, C, (itvAt I (i + 1)).add C,
        (itvAt I i).add (C.scale (-2 ^ 21))]
  | carryFloor i, I => let C := (carryFloor i).absCarry I
      [itvAt I i, C, (itvAt I (i + 1)).add C, (itvAt I i).add (C.scale (-2 ^ 21))]

/-- `InBounds` for `n` limbs. -/
def inBoundsB : LimbOp → ℕ → Bool
  | fold j, n => decide (12 ≤ j) && decide (j < n)
  | carryRound i, n => decide (i + 1 < n)
  | carryFloor i, n => decide (i + 1 < n)

/-- The check of one block on intervals. -/
def absSafe (op : LimbOp) (I : List Itv) : Bool :=
  op.inBoundsB I.length && (op.absValues I).all Itv.fits &&
    decide (-2 ^ 42 < (op.absCarry I).lo) && decide ((op.absCarry I).hi < 2 ^ 42)

theorem mem_absCarry (op : LimbOp) {s : List ℤ} {I : List Itv} (h : InItv s I) :
    Itv.Mem (op.carry s) (op.absCarry I) := by
  cases op with
  | fold j => exact ⟨le_rfl, le_rfl⟩
  | carryRound i => exact Itv.mem_shr21 (Itv.mem_add (h.mem i) (show Itv.Mem (2 ^ 20) ⟨2 ^ 20, 2 ^ 20⟩ from ⟨le_rfl, le_rfl⟩))
  | carryFloor i => exact Itv.mem_shr21 (h.mem i)

private theorem fits_of_mem {L : List Itv} (h : ∀ J ∈ L, J.fits = true) {x : ℤ} {J : Itv}
    (hx : Itv.Mem x J) (hJ : J ∈ L) : InInt64 x :=
  Itv.inInt64_of_fits hx (h J hJ)

/-- The last three values of a carry at `i` with carry `c ∈ C`: `c`, `s(i+1) + c` and
`si - int64_lshift21(c)`. -/
private theorem carry_values_fit {s : List ℤ} {I : List Itv} (h : InItv s I) (i : ℕ) {c : ℤ}
    {C : Itv} (hc : Itv.Mem c C) (hshift : -2 ^ 42 < c ∧ c < 2 ^ 42) {L : List Itv}
    (hv : ∀ J ∈ L, J.fits = true)
    (hL : C ∈ L ∧ (itvAt I (i + 1)).add C ∈ L ∧ (itvAt I i).add (C.scale (-2 ^ 21)) ∈ L) :
    InInt64 c ∧ InInt64 (getAt s (i + 1) + c) ∧ InInt64 (getAt s i - int64Lshift21 c) := by
  rw [int64Lshift21_eq hshift.1.le hshift.2]
  exact ⟨fits_of_mem hv hc hL.1, fits_of_mem hv (Itv.mem_add (h.mem _) hc) hL.2.1,
    fits_of_mem hv (h.mem_sub_mul i hc) hL.2.2⟩

/-- A block that passes the interval check is safe on every limb vector in the intervals,
and its result lies in the abstract result. -/
theorem absSafe_sound {op : LimbOp} {s : List ℤ} {I : List Itv} (h : InItv s I)
    (hc : op.absSafe I = true) : op.Safe s ∧ InItv (op.exec s) (op.absExec I) := by
  simp only [absSafe, Bool.and_eq_true, decide_eq_true_eq, List.all_eq_true] at hc
  obtain ⟨⟨⟨hb, hv⟩, hlo⟩, hhi⟩ := hc
  have hcm := mem_absCarry op h
  have hshift : -2 ^ 42 < op.carry s ∧ op.carry s < 2 ^ 42 :=
    ⟨lt_of_lt_of_le hlo hcm.1, lt_of_le_of_lt hcm.2 hhi⟩
  cases op with
  | fold j =>
    simp only [inBoundsB, Bool.and_eq_true, decide_eq_true_eq, ← h.1] at hb
    refine ⟨⟨hb, fun x hx => ?_, hshift⟩, ?_⟩
    · simp only [values, List.mem_flatMap, List.mem_range, List.mem_cons,
        List.not_mem_nil, or_false] at hx
      obtain ⟨k, hk, rfl | rfl⟩ := hx
      · exact fits_of_mem hv (Itv.mem_scale (h.mem j) _)
          (by simp only [absValues, List.mem_flatMap]; exact ⟨k, by simpa, by simp⟩)
      · exact fits_of_mem hv (Itv.mem_add (h.mem _) (Itv.mem_scale (h.mem j) _))
          (by simp only [absValues, List.mem_flatMap]; exact ⟨k, by simpa, by simp⟩)
    · have hm := h.addMultiples (h.mem j) (j - 12) foldCoeffs (by simp [foldCoeffs]; omega)
      refine hm.addAt (by simpa using hb.2) ?_
      rw [getAt_addMultiples s (j - 12) (getAt s j) foldCoeffs j (by simp [foldCoeffs]; omega),
        add_neg_cancel]
      exact ⟨le_rfl, le_rfl⟩
  | carryRound i =>
    simp only [inBoundsB, decide_eq_true_eq, ← h.1] at hb
    have ht := carry_values_fit h i hcm hshift hv (by simp [absValues])
    refine ⟨⟨hb, fun x hx => ?_, hshift⟩,
      h.applyCarry hb hcm hshift.1.le hshift.2 (sub_shiftRight_round _)⟩
    simp only [values, List.mem_cons, List.not_mem_nil, or_false] at hx
    rcases hx with rfl | rfl | rfl | rfl
    exacts [fits_of_mem hv (Itv.mem_add (h.mem i)
      (show Itv.Mem (2 ^ 20) ⟨2 ^ 20, 2 ^ 20⟩ from ⟨le_rfl, le_rfl⟩)) (by simp [absValues]),
      ht.1, ht.2.1, ht.2.2]
  | carryFloor i =>
    simp only [inBoundsB, decide_eq_true_eq, ← h.1] at hb
    have ht := carry_values_fit h i hcm hshift hv (by simp [absValues])
    refine ⟨⟨hb, fun x hx => ?_, hshift⟩,
      h.applyCarry hb hcm hshift.1.le hshift.2 (sub_shiftRight_floor _)⟩
    simp only [values, List.mem_cons, List.not_mem_nil, or_false] at hx
    rcases hx with rfl | rfl | rfl | rfl
    exacts [fits_of_mem hv (h.mem i) (by simp [absValues]), ht.1, ht.2.1, ht.2.2]

end LimbOp

/-- A run on intervals. -/
def absRun : List LimbOp → List Itv → List Itv
  | [], I => I
  | op :: ops, I => absRun ops (op.absExec I)

/-- The check of a whole run on intervals. -/
def absCheck : List LimbOp → List Itv → Bool
  | [], _ => true
  | op :: ops, I => op.absSafe I && absCheck ops (op.absExec I)

/-- A run that passes the interval check is safe from every limb vector in the starting
intervals, and ends in the abstract result. -/
theorem absCheck_sound {ops : List LimbOp} {s : List ℤ} {I : List Itv} (h : InItv s I)
    (hc : absCheck ops I = true) : RunSafe ops s ∧ InItv (runLimbs ops s) (absRun ops I) := by
  induction ops generalizing s I with
  | nil => exact ⟨trivial, h⟩
  | cons op ops ih =>
    simp only [absCheck, Bool.and_eq_true] at hc
    obtain ⟨hs, hi⟩ := LimbOp.absSafe_sound h hc.1
    exact ⟨⟨hs, (ih hi hc.2).1⟩, (ih hi hc.2).2⟩

end AvbCurve25519
