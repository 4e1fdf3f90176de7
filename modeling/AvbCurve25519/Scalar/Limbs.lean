import AvbCurve25519.Bytes
import Mathlib.Data.Int.ModEq
import Mathlib.Tactic.Ring

/-!
# Radix-`2^21` limb arithmetic of the scalar routines

`x25519_sc_reduce` and `sc_muladd` (`avb_curve25519.c:920-1752`) hold a scalar in
twenty-four `int64_t` limbs `s0 … s23` of 21 bits each and run a fixed straight-line
sequence of three kinds of block on them: a fold of a high limb into six lower ones, a carry
rounded to nearest, and a floor carry. This module gives those blocks as instructions
(`LimbOp`), their interpreter (`LimbOp.exec`, `runLimbs`), and what each one does to the
value of the limbs: a carry keeps it, a fold subtracts a multiple of `l`.
-/

namespace AvbCurve25519

/-- The order `l = 2^252 + 27742317777372353535851937790883648493` of the scalar group
(`avb_curve25519.c:920-922`). -/
def orderL : ℕ := 2 ^ 252 + 27742317777372353535851937790883648493

/-- The value of a limb vector, least significant limb first, in radix `2^21`. -/
def limbValue : List ℤ → ℤ
  | [] => 0
  | a :: t => a + 2 ^ 21 * limbValue t

/-- Limb `i` of a limb vector (zero past its end). -/
def getAt (s : List ℤ) (i : ℕ) : ℤ := s.getD i 0

/-- `s[i] += c`. -/
def addAt : List ℤ → ℕ → ℤ → List ℤ
  | [], _, _ => []
  | a :: t, 0, c => (a + c) :: t
  | a :: t, i + 1, c => a :: addAt t i c

/-- `int64_lshift21` (`avb_curve25519.c:914-918`): `a << 21` computed on `uint64_t` and
converted back to `int64_t`, so wrapped into `[-2^63, 2^63)`. -/
def int64Lshift21 (a : ℤ) : ℤ := Int.bmod (a * 2 ^ 21) (2 ^ 64)

/-- `-2^63`, the least `int64_t`. -/
def int64Min : ℤ := -9223372036854775808

/-- `2^63`, one past the greatest `int64_t`. -/
def int64End : ℤ := 9223372036854775808

/-- `x` is an `int64_t` value. -/
def InInt64 (x : ℤ) : Prop := int64Min ≤ x ∧ x < int64End

/-- The coefficients of a fold: `2^252 ≡ 666643 + 470296·2^21 + 654183·2^42 - 997805·2^63
+ 136657·2^84 - 683901·2^105 (mod l)`. -/
def foldCoeffs : List ℤ := [666643, 470296, 654183, -997805, 136657, -683901]

/-- `s(i + k) += v * c_k` for each coefficient `c_k`, in order. -/
def addMultiples (s : List ℤ) (i : ℕ) (v : ℤ) : List ℤ → List ℤ
  | [] => s
  | c :: cs => addMultiples (addAt s i (v * c)) (i + 1) v cs

/-- The blocks the scalar routines are made of. -/
inductive LimbOp
  /-- `s(j-12) += sj * 666643; s(j-11) += sj * 470296; s(j-10) += sj * 654183;
  s(j-9) -= sj * 997805; s(j-8) += sj * 136657; s(j-7) -= sj * 683901; sj = 0`. -/
  | fold (j : ℕ)
  /-- `carry = (si + (1 << 20)) >> 21; s(i+1) += carry; si -= int64_lshift21(carry)`. -/
  | carryRound (i : ℕ)
  /-- `carry = si >> 21; s(i+1) += carry; si -= int64_lshift21(carry)`. -/
  | carryFloor (i : ℕ)
  deriving DecidableEq, Repr

namespace LimbOp

/-- The carry a carry block computes (`>>` on `int64_t` is an arithmetic shift). -/
def carry : LimbOp → List ℤ → ℤ
  | fold _, _ => 0
  | carryRound i, s => Int.shiftRight (getAt s i + 2 ^ 20) 21
  | carryFloor i, s => Int.shiftRight (getAt s i) 21

/-- `s(i+1) += carry; si -= int64_lshift21(carry)`. -/
def applyCarry (s : List ℤ) (i : ℕ) (c : ℤ) : List ℤ :=
  addAt (addAt s (i + 1) c) i (-int64Lshift21 c)

/-- One block. `sj = 0` is written `sj -= sj`, which is the same since the fold writes
only below `j`. -/
def exec : LimbOp → List ℤ → List ℤ
  | fold j, s =>
    let v := getAt s j
    addAt (addMultiples s (j - 12) v foldCoeffs) j (-v)
  | carryRound i, s => applyCarry s i ((carryRound i).carry s)
  | carryFloor i, s => applyCarry s i ((carryFloor i).carry s)

end LimbOp

/-- A straight-line sequence of blocks, run in order. -/
def runLimbs : List LimbOp → List ℤ → List ℤ
  | [], s => s
  | op :: ops, s => runLimbs ops (op.exec s)

namespace LimbOp

/-- The limbs a block reads and writes exist: `s(j-12) … sj` for a fold, `si` and `s(i+1)`
for a carry. -/
def InBounds : LimbOp → List ℤ → Prop
  | fold j, s => 12 ≤ j ∧ j < s.length
  | carryRound i, s => i + 1 < s.length
  | carryFloor i, s => i + 1 < s.length

/-- The values a block computes, in order: for a fold the product `sj * c` (with `c`
positive, as the code writes `-=` for the negative coefficients) and the updated limb, for
each of the six coefficients; for a carry the shifted operand, the carry, the updated
`s(i+1)` and the updated `si`. -/
def values : LimbOp → List ℤ → List ℤ
  | fold j, s => (List.range 6).flatMap fun k =>
      [getAt s j * |foldCoeffs.getD k 0|, getAt s (j - 12 + k) + getAt s j * foldCoeffs.getD k 0]
  | carryRound i, s => let c := (carryRound i).carry s
      [getAt s i + 2 ^ 20, c, getAt s (i + 1) + c, getAt s i - int64Lshift21 c]
  | carryFloor i, s => let c := (carryFloor i).carry s
      [getAt s i, c, getAt s (i + 1) + c, getAt s i - int64Lshift21 c]

/-- A block runs without undefined behaviour and as the arithmetic says: its limbs exist,
every value it computes is an `int64_t`, and the argument of `int64_lshift21` lies strictly
between `-2^42` and `2^42`, so that `int64_lshift21` multiplies by `2^21` exactly. -/
structure Safe (op : LimbOp) (s : List ℤ) : Prop where
  inBounds : op.InBounds s
  noOverflow : ∀ x ∈ op.values s, InInt64 x
  shiftExact : -2 ^ 42 < op.carry s ∧ op.carry s < 2 ^ 42

end LimbOp

/-- Every block of a run is `Safe` on the limbs it meets. -/
def RunSafe : List LimbOp → List ℤ → Prop
  | [], _ => True
  | op :: ops, s => op.Safe s ∧ RunSafe ops (op.exec s)

/-! ## Limb access -/

@[simp] theorem limbValue_nil : limbValue [] = 0 := rfl

@[simp] theorem limbValue_cons (a : ℤ) (t : List ℤ) :
    limbValue (a :: t) = a + 2 ^ 21 * limbValue t := rfl

@[simp] theorem length_addAt (s : List ℤ) (i : ℕ) (c : ℤ) : (addAt s i c).length = s.length := by
  induction s generalizing i with
  | nil => rfl
  | cons a t ih => cases i <;> simp [addAt, ih]

theorem getAt_addAt (s : List ℤ) {i : ℕ} (hi : i < s.length) (c : ℤ) (k : ℕ) :
    getAt (addAt s i c) k = if k = i then getAt s k + c else getAt s k := by
  induction s generalizing i k with
  | nil => simp at hi
  | cons a t ih =>
    cases i with
    | zero => cases k <;> simp [addAt, getAt]
    | succ i =>
      cases k with
      | zero => simp [addAt, getAt]
      | succ k => simpa [addAt, getAt] using ih (by simpa using hi) k

theorem limbValue_addAt (s : List ℤ) {i : ℕ} (hi : i < s.length) (c : ℤ) :
    limbValue (addAt s i c) = limbValue s + c * 2 ^ (21 * i) := by
  induction s generalizing i with
  | nil => simp at hi
  | cons a t ih =>
    cases i with
    | zero => simp [addAt]; ring
    | succ i =>
      simp only [addAt, limbValue_cons, ih (by simpa using hi)]
      ring

theorem getAt_addAt_of_length_le (s : List ℤ) {i : ℕ} (hi : s.length ≤ i) (c : ℤ) :
    addAt s i c = s := by
  induction s generalizing i with
  | nil => rfl
  | cons a t ih =>
    cases i with
    | zero => simp at hi
    | succ i => simp [addAt, ih (by simpa using hi)]

@[simp] theorem length_addMultiples (s : List ℤ) (i : ℕ) (v : ℤ) (cs : List ℤ) :
    (addMultiples s i v cs).length = s.length := by
  induction cs generalizing s i <;> simp [addMultiples, *]

theorem limbValue_addMultiples (s : List ℤ) (i : ℕ) (v : ℤ) (cs : List ℤ)
    (h : i + cs.length ≤ s.length) :
    limbValue (addMultiples s i v cs) = limbValue s + v * 2 ^ (21 * i) * limbValue cs := by
  induction cs generalizing s i with
  | nil => simp [addMultiples]
  | cons c cs ih =>
    simp only [List.length_cons] at h
    rw [addMultiples, ih _ _ (by simp; omega), limbValue_addAt _ (by omega), limbValue_cons]
    ring

theorem getAt_addMultiples (s : List ℤ) (i : ℕ) (v : ℤ) (cs : List ℤ) (k : ℕ)
    (h : k < i ∨ i + cs.length ≤ k) : getAt (addMultiples s i v cs) k = getAt s k := by
  induction cs generalizing s i with
  | nil => rfl
  | cons c cs ih =>
    simp only [List.length_cons] at h
    rw [addMultiples, ih _ _ (by omega)]
    by_cases hi : i < s.length
    · rw [getAt_addAt _ hi, if_neg (by omega)]
    · rw [getAt_addAt_of_length_le _ (by omega)]

theorem limbValue_foldCoeffs : limbValue foldCoeffs = 2 ^ 252 - orderL := by
  norm_num [limbValue, foldCoeffs, orderL]

/-- `int64_lshift21` is a plain multiplication by `2^21` on carries below `2^42`. -/
theorem int64Lshift21_eq {a : ℤ} (h1 : -2 ^ 42 ≤ a) (h2 : a < 2 ^ 42) :
    int64Lshift21 a = a * 2 ^ 21 := by
  rw [int64Lshift21, Int.bmod_def]
  norm_num at h1 h2 ⊢
  split <;> omega

namespace LimbOp

@[simp] theorem length_exec (op : LimbOp) (s : List ℤ) : (op.exec s).length = s.length := by
  cases op <;> simp [exec, applyCarry]

/-- A fold takes `sj * 2^(21 (j - 12)) * l` off the value. -/
theorem limbValue_exec_fold {j : ℕ} (s : List ℤ) (hj : 12 ≤ j) (hs : j < s.length) :
    limbValue ((fold j).exec s) = limbValue s - getAt s j * 2 ^ (21 * (j - 12)) * orderL := by
  have e : 2 ^ (21 * j) = (2 : ℤ) ^ (21 * (j - 12)) * 2 ^ 252 := by
    rw [← pow_add]; congr 1; omega
  rw [exec, limbValue_addAt _ (by simpa using hs),
    limbValue_addMultiples _ _ _ _ (by simp [foldCoeffs]; omega), limbValue_foldCoeffs, e]
  ring

/-- A carry whose shifted value does not wrap keeps the value. -/
theorem limbValue_applyCarry (s : List ℤ) {i : ℕ} (hs : i + 1 < s.length) {c : ℤ}
    (h1 : -2 ^ 42 ≤ c) (h2 : c < 2 ^ 42) : limbValue (applyCarry s i c) = limbValue s := by
  rw [applyCarry, limbValue_addAt _ (by simp; omega), limbValue_addAt _ hs,
    int64Lshift21_eq h1 h2, mul_add, pow_add]
  ring

theorem getAt_applyCarry (s : List ℤ) {i : ℕ} (hs : i + 1 < s.length) (c : ℤ) (k : ℕ) :
    getAt (applyCarry s i c) k =
      if k = i then getAt s k - int64Lshift21 c
      else if k = i + 1 then getAt s k + c else getAt s k := by
  rw [applyCarry, getAt_addAt _ (by simp; omega), getAt_addAt _ hs]
  split_ifs <;> omega

/-- A safe block keeps the value modulo `l`. -/
theorem limbValue_exec_modEq {op : LimbOp} {s : List ℤ} (h : op.Safe s) :
    limbValue (op.exec s) ≡ limbValue s [ZMOD orderL] := by
  cases op with
  | fold j =>
    obtain ⟨hj, hs⟩ := h.inBounds
    rw [limbValue_exec_fold s hj hs, Int.modEq_iff_dvd]
    exact ⟨getAt s j * 2 ^ (21 * (j - 12)), by ring⟩
  | carryRound i =>
    rw [exec, limbValue_applyCarry s h.inBounds h.shiftExact.1.le h.shiftExact.2]
  | carryFloor i =>
    rw [exec, limbValue_applyCarry s h.inBounds h.shiftExact.1.le h.shiftExact.2]

end LimbOp

/-- A safe run keeps the value modulo `l`. -/
theorem limbValue_runLimbs_modEq {ops : List LimbOp} {s : List ℤ} (h : RunSafe ops s) :
    limbValue (runLimbs ops s) ≡ limbValue s [ZMOD orderL] := by
  induction ops generalizing s with
  | nil => rfl
  | cons op ops ih => exact (ih h.2).trans (LimbOp.limbValue_exec_modEq h.1)

@[simp] theorem length_runLimbs (ops : List LimbOp) (s : List ℤ) :
    (runLimbs ops s).length = s.length := by
  induction ops generalizing s <;> simp [runLimbs, *]

theorem runLimbs_append (ops ops' : List LimbOp) (s : List ℤ) :
    runLimbs (ops ++ ops') s = runLimbs ops' (runLimbs ops s) := by
  induction ops generalizing s <;> simp [runLimbs, *]

theorem runSafe_append {ops ops' : List LimbOp} {s : List ℤ} :
    RunSafe (ops ++ ops') s ↔ RunSafe ops s ∧ RunSafe ops' (runLimbs ops s) := by
  induction ops generalizing s with
  | nil => simp [RunSafe, runLimbs]
  | cons op ops ih => simp [RunSafe, runLimbs, ih, and_assoc]

end AvbCurve25519
