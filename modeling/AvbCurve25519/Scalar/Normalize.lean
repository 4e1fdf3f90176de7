import AvbCurve25519.Scalar.Interval
import Mathlib.Data.Int.Bitwise
import Mathlib.Tactic.IntervalCases

/-!
# Final reduction and packing of the scalar routines

Both `x25519_sc_reduce` and `sc_muladd` end the same way (`avb_curve25519.c:1142-1260`,
`1633-1751`): a fold of `s12`, floor carries through `s0 … s11`, a second fold of `s12`,
floor carries through `s0 … s10`, and the packing of `s0 … s11` into 32 bytes. This module
shows that these steps take any limb vector whose value is known to lie in
`[-2^252, 2^252)` after the first fold to the canonical limbs of a value in `[0, l)`, and
that the packing then writes exactly that value.
-/

namespace AvbCurve25519

open LimbOp

/-- `carry0 = s0 >> 21; … ` up to limb `n - 1`: the floor carries of the last two passes. -/
def floorCarries (n : ℕ) : List LimbOp := (List.range n).map carryFloor

theorem floorCarries_succ (n : ℕ) : floorCarries (n + 1) = floorCarries n ++ [carryFloor n] := by
  simp [floorCarries, List.range_succ]

/-- The limbs below `n` are canonical. -/
def LowCanonical (s : List ℤ) (n : ℕ) : Prop := ∀ i < n, 0 ≤ getAt s i ∧ getAt s i < 2 ^ 21

/-- A safe floor carry from limb `i` leaves `si` canonical and changes no other limb but
`s(i+1)`. -/
theorem getAt_exec_carryFloor {s : List ℤ} {i : ℕ} (h : (carryFloor i).Safe s) (k : ℕ) :
    getAt ((carryFloor i).exec s) k =
      if k = i then getAt s i % 2 ^ 21
      else if k = i + 1 then getAt s k + Int.shiftRight (getAt s i) 21 else getAt s k := by
  rw [exec, getAt_applyCarry _ h.inBounds,
    int64Lshift21_eq h.shiftExact.1.le h.shiftExact.2]
  split_ifs with h1
  · subst h1
    simp only [carry, ← Int.shiftRight_eq, Int.shiftRight_eq_div_pow]
    omega
  · rfl
  · rfl

/-- A safe run of the floor carries below `n` keeps the value, makes limbs `0 … n-1`
canonical and leaves the limbs above `n` alone. -/
theorem floorCarries_spec {n : ℕ} {s : List ℤ} (h : RunSafe (floorCarries n) s) :
    limbValue (runLimbs (floorCarries n) s) = limbValue s ∧
      LowCanonical (runLimbs (floorCarries n) s) n ∧
      ∀ k, n < k → getAt (runLimbs (floorCarries n) s) k = getAt s k := by
  induction n with
  | zero => exact ⟨rfl, fun i hi => absurd hi (Nat.not_lt_zero i), fun _ _ => rfl⟩
  | succ n ih =>
    rw [floorCarries_succ, runSafe_append] at h
    obtain ⟨hv, hc, hk⟩ := ih h.1
    have hs : (carryFloor n).Safe _ := h.2.1
    rw [floorCarries_succ, runLimbs_append]
    refine ⟨?_, fun i hi => ?_, fun k hk' => ?_⟩
    · simp only [runLimbs]
      rw [exec, limbValue_applyCarry _ hs.inBounds hs.shiftExact.1.le hs.shiftExact.2, hv]
    · simp only [runLimbs]
      rw [getAt_exec_carryFloor hs]
      split_ifs with h1 h2
      · exact ⟨Int.emod_nonneg _ (by norm_num), Int.emod_lt_of_pos _ (by norm_num)⟩
      · omega
      · exact hc i (by omega)
    · simp only [runLimbs]
      rw [getAt_exec_carryFloor hs, if_neg (by omega), if_neg (by omega), hk k (by omega)]

/-- The limbs above `n` are zero. -/
def HighZero (s : List ℤ) (n : ℕ) : Prop := ∀ k, n < k → getAt s k = 0

theorem limbValue_take_add_drop (s : List ℤ) (n : ℕ) :
    limbValue s = limbValue (s.take n) + 2 ^ (21 * n) * limbValue (s.drop n) := by
  induction s generalizing n with
  | nil => simp
  | cons a t ih =>
    cases n with
    | zero => simp
    | succ n =>
      rw [List.take_succ_cons, List.drop_succ_cons, limbValue_cons, limbValue_cons, ih n,
        Nat.mul_succ, pow_add]
      ring

theorem limbValue_take_bounds {s : List ℤ} {n : ℕ} (h : LowCanonical s n) :
    0 ≤ limbValue (s.take n) ∧ limbValue (s.take n) < 2 ^ (21 * n) := by
  induction s generalizing n with
  | nil => simp
  | cons a t ih =>
    cases n with
    | zero => simp
    | succ n =>
      have ha := h 0 (Nat.succ_pos n)
      obtain ⟨h1, h2⟩ := ih (n := n) fun i hi => h (i + 1) (by omega)
      simp only [getAt, List.getD_cons_zero] at ha
      rw [List.take_succ_cons, limbValue_cons, Nat.mul_succ, pow_add]
      constructor
      · exact add_nonneg ha.1 (mul_nonneg (by norm_num) h1)
      · have := mul_le_mul_of_nonneg_left (Int.le_sub_one_of_lt h2) (by norm_num : (0 : ℤ) ≤ 2 ^ 21)
        linarith

theorem getAt_drop (s : List ℤ) (n k : ℕ) : getAt (s.drop n) k = getAt s (n + k) := by
  simp [getAt, List.getElem?_drop]

theorem limbValue_eq_getAt_of_highZero {s : List ℤ} {n : ℕ} (h : HighZero s n) :
    limbValue (s.drop n) = getAt s n := by
  suffices ∀ t : List ℤ, (∀ k, getAt t (k + 1) = 0) → limbValue t = getAt t 0 by
    rw [this _ fun k => by rw [getAt_drop]; exact h _ (by omega), getAt_drop, Nat.add_zero]
  intro t ht
  cases t with
  | nil => rfl
  | cons a t =>
    suffices limbValue t = 0 by simp [this, getAt]
    induction t with
    | nil => rfl
    | cons b u ih =>
      have hb := ht 0
      simp only [getAt, List.getD_cons_succ, List.getD_cons_zero] at hb
      rw [limbValue_cons, hb, ih fun k => by simpa [getAt] using ht (k + 1)]
      ring

/-- Limbs `0 … n-1` canonical and limbs above `n` zero: the value is `low + 2^(21 n) sn`
with `low ∈ [0, 2^(21 n))`. -/
theorem limbValue_split {s : List ℤ} {n : ℕ} (hc : LowCanonical s n) (hz : HighZero s n) :
    ∃ low, 0 ≤ low ∧ low < 2 ^ (21 * n) ∧ limbValue s = low + 2 ^ (21 * n) * getAt s n :=
  ⟨_, (limbValue_take_bounds hc).1, (limbValue_take_bounds hc).2,
    by rw [← limbValue_eq_getAt_of_highZero hz]; exact limbValue_take_add_drop s n⟩

theorem getAt_exec_fold {s : List ℤ} {j : ℕ} (h : (fold j).InBounds s) (k : ℕ)
    (hk : k < j - 12 ∨ j - 6 ≤ k) : getAt ((fold j).exec s) k = if k = j then 0 else getAt s k := by
  obtain ⟨hj, hs⟩ := h
  rw [exec, getAt_addAt _ (by simpa using hs),
    getAt_addMultiples _ _ _ _ _ (by simp [foldCoeffs]; omega)]
  split_ifs with h1
  · subst h1; exact add_neg_cancel _
  · rfl

/-- The last two passes: fold `s12`, floor carries through `s11`, fold `s12`, floor carries
through `s10` (`avb_curve25519.c:1142-1228`, `1633-1719`). -/
def scTailOps : List LimbOp := fold 12 :: (floorCarries 12 ++ fold 12 :: floorCarries 11)

/-- The limbs of a fully reduced scalar: `s0 … s10` canonical, `s11 ∈ [0, 2^21]`, nothing
above `s11`, and a value in `[0, l)`. -/
structure Reduced (s : List ℤ) : Prop where
  low : LowCanonical s 11
  top : 0 ≤ getAt s 11 ∧ getAt s 11 ≤ 2 ^ 21
  high : HighZero s 11
  value : 0 ≤ limbValue s ∧ limbValue s < orderL

private theorem highZero_exec_fold {s : List ℤ} (h : (fold 12).InBounds s) (hz : HighZero s 12) :
    HighZero ((fold 12).exec s) 11 := fun k hk => by
  rw [getAt_exec_fold h k (by omega)]
  split_ifs with h12
  · rfl
  · exact hz k (by omega)

/-- The final reduction: if the value after the first fold of `s12` lies in
`[-2^252, 2^252)`, the remaining passes end on a `Reduced` limb vector. The first floor
pass leaves `s12 ∈ {-1, 0}`; the second fold adds `l` back exactly when `s12 = -1`. -/
theorem reduced_runLimbs_scTailOps {s : List ℤ} (hsafe : RunSafe scTailOps s)
    (hz : HighZero s 12)
    (hV : -2 ^ 252 ≤ limbValue ((fold 12).exec s) ∧ limbValue ((fold 12).exec s) < 2 ^ 252) :
    Reduced (runLimbs scTailOps s) := by
  obtain ⟨h1, h2⟩ := hsafe
  rw [runSafe_append] at h2
  obtain ⟨h2, h3, h4⟩ := h2
  have hrun : runLimbs scTailOps s =
      runLimbs (floorCarries 11) ((fold 12).exec (runLimbs (floorCarries 12) ((fold 12).exec s))) := by
    simp [scTailOps, runLimbs, runLimbs_append]
  obtain ⟨hv2, hc2, hk2⟩ := floorCarries_spec h2
  obtain ⟨hv4, hc4, hk4⟩ := floorCarries_spec h4
  have hV3 := limbValue_exec_fold (runLimbs (floorCarries 12) ((fold 12).exec s)) le_rfl
    h3.inBounds.2
  have hz1 := highZero_exec_fold h1.inBounds hz
  rw [hrun]
  set t2 := runLimbs (floorCarries 12) ((fold 12).exec s)
  set t4 := runLimbs (floorCarries 11) ((fold 12).exec t2)
  have hz2 : HighZero t2 12 := fun k hk => by rw [hk2 k hk]; exact hz1 k (by omega)
  have hz4 : HighZero t4 11 := fun k hk => by
    rw [hk4 k hk]; exact highZero_exec_fold h3.inBounds hz2 k hk
  obtain ⟨low, hl0, hl1, hV2⟩ := limbValue_split hc2 hz2
  rw [hv2] at hV2
  rw [hV2] at hV
  have hval : 0 ≤ limbValue t4 ∧ limbValue t4 < orderL := by
    rw [hv4, hV3, hv2, hV2]
    norm_num [orderL] at hl1 hV ⊢
    omega
  refine ⟨hc4, ?_, hz4, hval⟩
  obtain ⟨low', hm0, hm1, hV4⟩ := limbValue_split hc4 hz4
  rw [hV4] at hval
  norm_num [orderL] at hm1 hval
  omega

/-! ## From an interval check to a reduced result -/

/-- Lower end of the value of limbs in the intervals (`2^21` written out, for the kernel). -/
def itvValueLo : List Itv → ℤ
  | [] => 0
  | a :: t => a.lo + 2097152 * itvValueLo t

/-- Upper end of the value of limbs in the intervals. -/
def itvValueHi : List Itv → ℤ
  | [] => 0
  | a :: t => a.hi + 2097152 * itvValueHi t

theorem InItv.limbValue_mem {s : List ℤ} {I : List Itv} (h : InItv s I) :
    itvValueLo I ≤ limbValue s ∧ limbValue s ≤ itvValueHi I := by
  obtain ⟨hl, hm⟩ := h
  induction s generalizing I with
  | nil => cases I with
    | nil => exact ⟨le_rfl, le_rfl⟩
    | cons _ _ => simp at hl
  | cons a t ih =>
    cases I with
    | nil => simp at hl
    | cons b J =>
      have h0 := hm 0
      have ht := ih (I := J) (by simpa using hl) fun i => by simpa [getAt, itvAt] using hm (i + 1)
      simp only [getAt, itvAt, List.getD_cons_zero, Itv.Mem] at h0
      simp only [limbValue_cons, itvValueLo, itvValueHi]
      constructor <;> nlinarith [ht.1, ht.2, h0.1, h0.2]

/-- The check that makes a block sequence `head` followed by `scTailOps` end on reduced
limbs from every limb vector in `I`: the whole run passes the interval check, the limbs
above `s12` are zero after `head`, and the value after the next fold lies in
`[-2^252, 2^252)`. -/
def tailCheck (head : List LimbOp) (I : List Itv) : Bool :=
  absCheck (head ++ scTailOps) I &&
    (List.range 11).all (fun k => itvAt (absRun head I) (k + 13) == ⟨0, 0⟩) &&
    decide (-((2 ^ 252 : ℕ) : ℤ) ≤ itvValueLo ((fold 12).absExec (absRun head I))) &&
    decide (itvValueHi ((fold 12).absExec (absRun head I)) < ((2 ^ 252 : ℕ) : ℤ))

theorem absCheck_append {ops ops' : List LimbOp} {I : List Itv} :
    absCheck (ops ++ ops') I = (absCheck ops I && absCheck ops' (absRun ops I)) := by
  induction ops generalizing I with
  | nil => simp [absCheck, absRun]
  | cons op ops ih => simp [absCheck, absRun, ih, Bool.and_assoc]

/-- A passed `tailCheck` gives a safe run ending on reduced limbs. -/
theorem reduced_of_tailCheck {head : List LimbOp} {s : List ℤ} {I : List Itv}
    (hI : InItv s I) (hlen : s.length = 24) (hc : tailCheck head I = true) :
    RunSafe (head ++ scTailOps) s ∧ Reduced (runLimbs (head ++ scTailOps) s) := by
  simp only [tailCheck, Bool.and_eq_true, decide_eq_true_eq, List.all_eq_true, List.mem_range,
    beq_iff_eq, Nat.cast_pow, Nat.cast_ofNat] at hc
  obtain ⟨⟨⟨hrun, hzero⟩, hlo⟩, hhi⟩ := hc
  have hsafe := (absCheck_sound hI hrun).1
  refine ⟨hsafe, ?_⟩
  rw [absCheck_append, Bool.and_eq_true] at hrun
  obtain ⟨hsh, hi⟩ := absCheck_sound hI hrun.1
  rw [runSafe_append] at hsafe
  rw [runLimbs_append]
  refine reduced_runLimbs_scTailOps hsafe.2 (fun k hk => ?_) ?_
  · rcases lt_or_le k 24 with hk' | hk'
    · have := hi.mem k
      rw [show k = (k - 13) + 13 by omega, hzero (k - 13) (by omega)] at this
      rw [show k = (k - 13) + 13 by omega]
      exact le_antisymm this.2 this.1
    · simp [getAt, List.getD_eq_getElem?_getD, List.getElem?_eq_none, hlen, hk']
  · have hf := (LimbOp.absSafe_sound hi (by
      simp only [absCheck, Bool.and_eq_true] at hrun; exact hrun.2.1)).2
    have hb := hf.limbValue_mem
    exact ⟨hlo.trans hb.1, lt_of_le_of_lt hb.2 hhi⟩

/-! ## Packing -/

/-- `x >> k` on `int64_t`: an arithmetic shift. -/
def shr (x : ℤ) (k : ℕ) : ℤ := Int.shiftRight x k

/-- `x << k` on a non-negative `int64_t` whose result fits: a multiplication. -/
def shl (x : ℤ) (k : ℕ) : ℤ := x * 2 ^ k

/-- The conversion of an `int64_t` to `uint8_t`, which keeps it modulo `2^8`. -/
def toU8 (v : ℤ) : UInt8 := UInt8.ofNat (v % 256).toNat

theorem toNat_toU8_natCast (x : ℕ) : (toU8 x).toNat = x % 256 := by
  have h : ((x : ℤ) % 256).toNat = x % 256 := by omega
  rw [toU8, h]
  exact UInt8.toNat_ofNat_of_lt (Nat.mod_lt _ (by decide))

theorem toNat_toU8_shr (n m : ℕ) : (toU8 (shr n m)).toNat = n / 2 ^ m % 256 := by
  rw [shr, ← Int.shiftRight_eq, Int.shiftRight_eq_div_pow, ← Int.ofNat_ediv, toNat_toU8_natCast]

theorem toNat_toU8_lor (n y m k : ℕ) (hn : n < 2 ^ (m + k)) :
    (toU8 (Int.lor (shr n m) (shl y k))).toNat = (n / 2 ^ m + 2 ^ k * y) % 256 := by
  have hq : n / 2 ^ m < 2 ^ k := by
    rw [Nat.div_lt_iff_lt_mul (by positivity), ← pow_add, Nat.add_comm]; exact hn
  have e : Int.lor (shr n m) (shl y k) = ((n / 2 ^ m ||| y <<< k : ℕ) : ℤ) := by
    rw [shr, shl, ← Int.shiftRight_eq, Int.shiftRight_eq_div_pow, ← Int.ofNat_ediv,
      Nat.shiftLeft_eq, show (y : ℤ) * 2 ^ k = ((y * 2 ^ k : ℕ) : ℤ) by push_cast; ring]
    rfl
  rw [e, lor_shiftLeft k hq, toNat_toU8_natCast]

/-- The value of non-negative limbs in radix `2^21`. -/
def limbNat : List ℕ → ℕ
  | [] => 0
  | a :: t => a + 2 ^ 21 * limbNat t

/-- Byte `(21 a + m) / 8` of a limb value, read off limbs `a` and `a + 1`. -/
theorem limbNat_digit (L : List ℕ) (a m : ℕ) (hL : ∀ i < a, L.getD i 0 < 2 ^ 21) (hm : m ≤ 21) :
    limbNat L / 2 ^ (21 * a + m) % 256 =
      (L.getD a 0 / 2 ^ m + 2 ^ (21 - m) * L.getD (a + 1) 0) % 256 := by
  induction a generalizing L with
  | zero =>
    cases L with
    | nil => simp [limbNat]
    | cons x t =>
      have e : limbNat (x :: t) = x + 2 ^ m * (2 ^ (21 - m) * limbNat t) := by
        rw [limbNat, ← mul_assoc, ← pow_add, Nat.add_sub_cancel' hm]
      rw [Nat.mul_zero, Nat.zero_add, e, Nat.add_mul_div_left _ _ (by positivity)]
      cases t with
      | nil => simp [limbNat]
      | cons y u =>
        have e2 : 2 ^ (21 - m) * limbNat (y :: u) = 2 ^ (21 - m) * y + 256 * (2 ^ (34 - m) * limbNat u) := by
          rw [limbNat, mul_add, ← mul_assoc, ← mul_assoc, ← pow_add,
            show 21 - m + 21 = 8 + (34 - m) by omega, pow_add]
          norm_num
        simp only [List.getD_cons_zero, List.getD_cons_succ]
        rw [e2, ← add_assoc, Nat.add_mul_mod_self_left]
  | succ a ih =>
    cases L with
    | nil => simp [limbNat]
    | cons x t =>
      have hx : x < 2 ^ 21 := by simpa using hL 0 (by omega)
      rw [limbNat, show 21 * (a + 1) + m = 21 + (21 * a + m) by ring, pow_add,
        ← Nat.div_div_eq_div_mul, show (x + 2 ^ 21 * limbNat t) / 2 ^ 21 = limbNat t by omega,
        ih t fun i hi => by simpa using hL (i + 1) (by omega)]
      simp

/-- The packing of `s0 … s11` into 32 bytes that ends both scalar routines
(`avb_curve25519.c:1229-1260`). -/
def scPack (s : List ℤ) : List UInt8 :=
  let s0 := getAt s 0
  let s1 := getAt s 1
  let s2 := getAt s 2
  let s3 := getAt s 3
  let s4 := getAt s 4
  let s5 := getAt s 5
  let s6 := getAt s 6
  let s7 := getAt s 7
  let s8 := getAt s 8
  let s9 := getAt s 9
  let s10 := getAt s 10
  let s11 := getAt s 11
  [toU8 (shr s0 0), toU8 (shr s0 8), toU8 (Int.lor (shr s0 16) (shl s1 5)),
    toU8 (shr s1 3), toU8 (shr s1 11), toU8 (Int.lor (shr s1 19) (shl s2 2)),
    toU8 (shr s2 6), toU8 (Int.lor (shr s2 14) (shl s3 7)),
    toU8 (shr s3 1), toU8 (shr s3 9), toU8 (Int.lor (shr s3 17) (shl s4 4)),
    toU8 (shr s4 4), toU8 (shr s4 12), toU8 (Int.lor (shr s4 20) (shl s5 1)),
    toU8 (shr s5 7), toU8 (Int.lor (shr s5 15) (shl s6 6)),
    toU8 (shr s6 2), toU8 (shr s6 10), toU8 (Int.lor (shr s6 18) (shl s7 3)),
    toU8 (shr s7 5), toU8 (shr s7 13),
    toU8 (shr s8 0), toU8 (shr s8 8), toU8 (Int.lor (shr s8 16) (shl s9 5)),
    toU8 (shr s9 3), toU8 (shr s9 11), toU8 (Int.lor (shr s9 19) (shl s10 2)),
    toU8 (shr s10 6), toU8 (Int.lor (shr s10 14) (shl s11 7)),
    toU8 (shr s11 1), toU8 (shr s11 9), toU8 (shr s11 17)]

theorem limbValue_eq_limbNat (l : List ℤ) (h : ∀ x ∈ l, 0 ≤ x) :
    limbValue l = limbNat (l.map Int.toNat) := by
  induction l with
  | nil => rfl
  | cons a t ih =>
    simp only [List.mem_cons, forall_eq_or_imp] at h
    simp [limbNat, ih h.2, Int.toNat_of_nonneg h.1]

theorem getAt_eq_getD_map_toNat {s : List ℤ} (hnn : ∀ i, 0 ≤ getAt s i) (i : ℕ) :
    getAt s i = (((s.map Int.toNat).getD i 0 : ℕ) : ℤ) := by
  have := hnn i
  simp only [getAt, List.getD_eq_getElem?_getD, List.getElem?_map] at this ⊢
  rcases h : s[i]? with _ | x
  · rfl
  · rw [h] at this; simpa using (Int.toNat_of_nonneg this).symm

/-- On reduced limbs the packing writes the value of the limbs. -/
theorem leValue_scPack {s : List ℤ} (h : Reduced s) : (leValue (scPack s) : ℤ) = limbValue s := by
  obtain ⟨hc, ⟨h11a, h11b⟩, hz, -, hlt⟩ := h
  have hnn : ∀ i, 0 ≤ getAt s i := fun i => by
    rcases lt_trichotomy i 11 with hi | rfl | hi
    · exact (hc i hi).1
    · exact h11a
    · rw [hz i hi]
  have hget := getAt_eq_getD_map_toNat hnn
  set L := s.map Int.toNat
  have hlow : ∀ i < 11, L.getD i 0 < 2 ^ 21 := fun i hi => by
    have := (hc i hi).2; rw [hget] at this; exact_mod_cast this
  have h11 : L.getD 11 0 ≤ 2 ^ 21 := by rw [hget] at h11b; exact_mod_cast h11b
  have h12 : L.getD 12 0 = 0 := by have := hz 12 (by omega); rw [hget] at this; exact_mod_cast this
  have hdig : ∀ k < 32, limbNat L / 256 ^ k % 256 =
      (L.getD (8 * k / 21) 0 / 2 ^ (8 * k % 21) +
        2 ^ (21 - 8 * k % 21) * L.getD (8 * k / 21 + 1) 0) % 256 := fun k hk => by
    rw [show (256 : ℕ) ^ k = 2 ^ (21 * (8 * k / 21) + 8 * k % 21) by
      rw [show (256 : ℕ) = 2 ^ 8 by rfl, ← pow_mul]; congr 1; omega]
    exact limbNat_digit L _ _ (fun i hi => hlow i (by omega)) (by omega)
  have hmem : ∀ x ∈ s, 0 ≤ x := fun x hx => by
    obtain ⟨i, hi, rfl⟩ := List.mem_iff_getElem.mp hx
    simpa [getAt, hi] using hnn i
  rw [limbValue_eq_limbNat s hmem] at hlt ⊢
  have hV : limbNat L < 256 ^ 32 := by
    have : (limbNat L : ℤ) < 256 ^ 32 := lt_of_lt_of_le hlt (by norm_num [orderL])
    exact_mod_cast this
  rw [leValue_eq_of_digits _ (limbNat L) ?_,
    show (scPack s).length = 32 from rfl, Nat.mod_eq_of_lt hV]
  intro k hk
  rw [show (scPack s).length = 32 from rfl] at hk
  rw [hdig k hk]
  simp only [scPack, hget]
  interval_cases k
  all_goals
    simp (disch := exact hlow _ (by norm_num)) only [List.getD_cons_succ, List.getD_cons_zero,
      toNat_toU8_shr, toNat_toU8_lor, h12]
  all_goals norm_num
  all_goals omega

/-- A block sequence `head` that passes `tailCheck` from the input intervals, followed by
`scTailOps` and the packing, writes the value of the limbs modulo `l`. -/
theorem scPack_runLimbs_eq {head : List LimbOp} {s : List ℤ} {I : List Itv} {V : ℕ}
    (hI : InItv s I) (hlen : s.length = 24) (hc : tailCheck head I = true)
    (hV : limbValue s = V) :
    scPack (runLimbs (head ++ scTailOps) s) = leBytes 32 (V % orderL) := by
  obtain ⟨hsafe, hred⟩ := reduced_of_tailCheck hI hlen hc
  have hmod := limbValue_runLimbs_modEq hsafe
  rw [hV, Int.ModEq, Int.emod_eq_of_lt hred.value.1 hred.value.2] at hmod
  have hl : V % orderL < 256 ^ 32 := (Nat.mod_lt _ (by norm_num [orderL])).trans (by
    norm_num [orderL])
  apply eq_of_leValue_eq (by simp [scPack])
  rw [leValue_leBytes, Nat.mod_eq_of_lt hl]
  exact_mod_cast (leValue_scPack hred).trans hmod

/-- What the limb arithmetic of `x25519_sc_reduce` and `sc_muladd` needs to be defined
behaviour: every limb fits `int64_t` on entry, every block is `Safe` (no overflow, every
carry handed to `int64_lshift21` below `2^42` in absolute value), and the limbs `s0 … s11`
that the packing shifts are non-negative. -/
structure ScSafe (ops : List LimbOp) (s : List ℤ) : Prop where
  input : ∀ x ∈ s, InInt64 x
  run : RunSafe ops s
  packNonneg : ∀ i ≤ 11, 0 ≤ getAt (runLimbs ops s) i

/-- A passed `tailCheck` from intervals that fit `int64_t` makes the whole run `ScSafe`. -/
theorem scSafe_of_tailCheck {head : List LimbOp} {s : List ℤ} {I : List Itv}
    (hI : InItv s I) (hlen : s.length = 24) (hc : tailCheck head I = true)
    (hfit : ∀ J ∈ I, J.fits = true) : ScSafe (head ++ scTailOps) s := by
  obtain ⟨hsafe, hred⟩ := reduced_of_tailCheck hI hlen hc
  refine ⟨hI.inInt64 hfit, hsafe, fun i hi => ?_⟩
  rcases Nat.lt_or_eq_of_le hi with hi | rfl
  · exact (hred.low i hi).1
  · exact hred.top.1

end AvbCurve25519
