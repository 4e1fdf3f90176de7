import AvbCurve25519.Ge.Select
import Mathlib.Algebra.Module.BigOperators

/-!
# The comb: `x25519_ge_scalarmult_small_precomp`

`x25519_ge_scalarmult_small_precomp` (`avb_curve25519.c:686-738`) computes `[a] B` for a
32-byte scalar `a` from a table of 15 affine points, entry `j - 1` being the sum of the
`[2^(64 k)] B` over the bits `k < 4` set in `j`. Round `i`, from `63` down to `0`, doubles the
accumulator by adding it to its own cached form, then adds the entry whose index gathers bits
`i`, `64 + i`, `128 + i` and `192 + i` of `a`, or the identity where all four are clear.
`x25519_ge_scalarmult_base` (`avb_curve25519.c:740-742`) passes `k25519SmallPrecomp`, which
`curve25519_tables_32.h` defines and which is not among the sources: here the table is a
parameter, and `SmallPrecompTable B` states what it holds for a base point `B`.

Once the rounds down to `n` are done, the accumulator holds `[combScalar A n] B`: the 64-bit
chunks of `A`, each shifted right by `n`, at weights `2^(64 k)` (`combRounds_rep`). At `n = 0`
that is `A` itself.
-/

namespace AvbCurve25519

open Finset EdCurve

/-! ## The code -/

/-- Entry `i` of the table expanded into a `ge_precomp` (`avb_curve25519.c:695-706`). -/
def smallPrecompEntry (precompTable : List UInt8) (i : ℕ) : GePrecomp :=
  let bytes := precompTable.drop (i * (2 * 32))
  let x := feFrombytesStrict (bytes.take 32)
  let y := feFrombytesStrict ((bytes.drop 32).take 32)
  ⟨y + x, y - x, x * y * d2⟩

/-- `multiples` (`avb_curve25519.c:691-706`). -/
def smallPrecompMultiples (precompTable : List UInt8) : List GePrecomp :=
  (List.range 15).map (smallPrecompEntry precompTable)

/-- `index` of round `i` (`avb_curve25519.c:715-720`): its bit `j` is
`1 & (a[8 j + i / 8] >> (i & 7))`. -/
def combIndex (a : List UInt8) (i : ℕ) : ℕ :=
  (List.range 4).foldl (fun index j =>
    let bit := 1 &&& ((a.getD (8 * j + i / 8) 0).toNat >>> (i &&& 7))
    index ||| bit <<< j) 0

/-- The entry `e` of a round (`avb_curve25519.c:722-727`). -/
def combSelect (multiples : List GePrecomp) (index : ℕ) : GePrecomp :=
  (List.range' 1 15).foldl
    (fun e j => cmov e (multiples.getD (j - 1) gePrecomp0) (1 &&& constantTimeEqW index j))
    gePrecomp0

/-- Round `i` of the main loop (`avb_curve25519.c:713-737`). -/
def combRound (a : List UInt8) (multiples : List GePrecomp) (h : GeP3) (i : ℕ) : GeP3 :=
  let e := combSelect multiples (combIndex a i)
  let cached := x25519GeP3ToCached h
  let r := x25519GeAdd h cached
  let h := x25519GeP1p1ToP3 r
  let r := geMadd h e
  x25519GeP1p1ToP3 r

/-- Rounds `n - 1` down to `0`. `for (i = 63; i < 64; i--)` runs `i = 63, ..., 0` and stops
when the unsigned `i--` wraps around at `0`. -/
def combRounds (a : List UInt8) (multiples : List GePrecomp) : ℕ → GeP3 → GeP3
  | 0, h => h
  | n + 1, h => combRounds a multiples n (combRound a multiples h n)

/-- `x25519_ge_scalarmult_small_precomp` (`avb_curve25519.c:686-738`). -/
def x25519GeScalarmultSmallPrecomp (a precompTable : List UInt8) : GeP3 :=
  combRounds a (smallPrecompMultiples precompTable) 64 geP30

/-- `x25519_ge_scalarmult_base` (`avb_curve25519.c:740-742`), over the table
`k25519SmallPrecomp`. -/
def x25519GeScalarmultBase (k25519SmallPrecomp a : List UInt8) : GeP3 :=
  x25519GeScalarmultSmallPrecomp a k25519SmallPrecomp

/-! ## The table -/

/-- The point of entry `j - 1` for base point `B`: the sum over the bits `k < 4` set in `j`
of `[2^(64 k)] B`. -/
def combEntry (B : ed25519.Point) (j : ℕ) : ed25519.Point :=
  ∑ k in range 4, if j.testBit k then 2 ^ (64 * k) • B else 0

/-- Entry `j - 1` of the table, for `1 ≤ j < 16`, holds the canonical little-endian affine
coordinates `x ++ y` of `combEntry B j`. -/
def SmallPrecompTable (B : ed25519.Point) (precompTable : List UInt8) : Prop :=
  ∀ j, 1 ≤ j → j < 16 → (precompTable.drop ((j - 1) * 64)).take 64 =
    feTobytes (combEntry B j).x ++ feTobytes (combEntry B j).y

variable {B : ed25519.Point}

/-- The entry `j - 1` is `[∑ k, 2^(64 k) * bit k of j] B`. -/
theorem combEntry_eq (B : ed25519.Point) (j : ℕ) :
    combEntry B j = (∑ k in range 4, 2 ^ (64 * k) * (j / 2 ^ k % 2)) • B := by
  rw [combEntry, Finset.sum_smul]
  refine Finset.sum_congr rfl fun k _ => ?_
  rw [Nat.testBit_to_div_mod]
  rcases Nat.mod_two_eq_zero_or_one (j / 2 ^ k) with h | h <;> simp [h]

theorem combEntry_zero (B : ed25519.Point) : combEntry B 0 = 0 := by
  simp [combEntry]

theorem smallPrecompEntry_rep {t : List UInt8} (ht : SmallPrecompTable B t) {j : ℕ} (hj : 1 ≤ j)
    (hj' : j < 16) : (smallPrecompEntry t (j - 1)).Rep (combEntry B j) := by
  have he := ht j hj hj'
  have hx := congrArg (List.take 32) he
  have hy := congrArg (List.drop 32) he
  rw [List.take_take, show min 32 64 = 32 from rfl, List.take_left' (length_feTobytes _)] at hx
  rw [List.drop_take, show 64 - 32 = 32 from rfl, List.drop_left' (length_feTobytes _)] at hy
  simp only [smallPrecompEntry, Nat.reduceMul, hx, hy, feFrombytesStrict_feTobytes]
  exact ⟨rfl, rfl, by ring⟩

/-- The scan of a round returns entry `index - 1` of `multiples`, or the identity at
`index = 0`. -/
theorem combSelect_eq (multiples : List GePrecomp) (index : ℕ) :
    combSelect multiples index =
      if 1 ≤ index ∧ index < 16 then multiples.getD (index - 1) gePrecomp0 else gePrecomp0 := by
  have h := foldl_select cmov cmov_eq (fun j => multiples.getD (j - 1) gePrecomp0) index _
    (List.nodup_range' 1 15) gePrecomp0
  simp only [List.mem_range'_1, Nat.reduceAdd] at h
  exact h

theorem combSelect_rep {t : List UInt8} (ht : SmallPrecompTable B t) {index : ℕ}
    (hi : index < 16) : (combSelect (smallPrecompMultiples t) index).Rep (combEntry B index) := by
  rw [combSelect_eq]
  split_ifs with h
  · simp only [smallPrecompMultiples, List.getD_eq_getElem?_getD, List.getElem?_map,
      List.getElem?_range (show index - 1 < 15 by omega), Option.map_some', Option.getD_some]
    exact smallPrecompEntry_rep ht h.1 hi
  · obtain rfl : index = 0 := by omega
    rw [combEntry_zero]
    exact GePrecomp.rep_gePrecomp0

/-! ## The index -/

theorem one_and_lt_two (x : ℕ) : 1 &&& x < 2 := by
  rw [Nat.and_comm, Nat.and_one_is_mod]
  exact Nat.mod_lt _ two_pos

/-- Or-ing in bits `f j < 2` at positions `j < n` adds them up. -/
theorem foldl_or_shiftLeft (f : ℕ → ℕ) (n : ℕ) (hf : ∀ j < n, f j < 2) :
    (List.range n).foldl (fun acc j => acc ||| f j <<< j) 0 = ∑ j in range n, 2 ^ j * f j ∧
      ∑ j in range n, 2 ^ j * f j < 2 ^ n := by
  induction n with
  | zero => simp
  | succ n ih =>
    have hn := hf n (by omega)
    have ih := ih fun j hj => hf j (by omega)
    rw [List.range_succ, List.foldl_append, List.foldl_cons, List.foldl_nil, ih.1,
      lor_shiftLeft n ih.2, Finset.sum_range_succ, pow_succ]
    exact ⟨rfl, by nlinarith [ih.2]⟩

/-- Bit `k < 4` of `∑ j < 4, 2^j c j` is `c k`. -/
theorem sum_four_div_mod_two (c : ℕ → ℕ) (hc : ∀ j, c j < 2) {k : ℕ} (hk : k < 4) :
    (∑ j in range 4, 2 ^ j * c j) / 2 ^ k % 2 = c k := by
  simp only [Finset.sum_range_succ, Finset.sum_range_zero]
  have := hc 0; have := hc 1; have := hc 2; have := hc 3
  interval_cases k <;> simp <;> omega

/-- Bit `k < 4` of the index of round `i < 64` is bit `64 k + i` of the scalar. -/
theorem combIndex_div_mod_two (a : List UInt8) {i : ℕ} (hi : i < 64) {k : ℕ} (hk : k < 4) :
    combIndex a i / 2 ^ k % 2 = leValue (a.take 32) / 2 ^ (64 * k + i) % 2 := by
  have hbit : ∀ j < 4, 1 &&& ((a.getD (8 * j + i / 8) 0).toNat >>> (i &&& 7)) =
      leValue (a.take 32) / 2 ^ (64 * j + i) % 2 := by
    intro j hj
    have hm : (64 * j + i) / 8 < 32 := by omega
    rw [Nat.and_comm, Nat.and_one_is_mod, Nat.shiftRight_eq_div_pow,
      show i &&& 7 = (64 * j + i) % 8 by
        rw [show (7 : ℕ) = 2 ^ 3 - 1 from rfl, Nat.and_pow_two_sub_one_eq_mod]; omega,
      show 8 * j + i / 8 = (64 * j + i) / 8 by omega, ← getD_div_mod_two]
    simp [List.getElem?_take, hm]
  have hf := foldl_or_shiftLeft (fun j => 1 &&& ((a.getD (8 * j + i / 8) 0).toNat >>> (i &&& 7))) 4
    fun _ _ => one_and_lt_two _
  simp only at hf
  simp only [combIndex, hf.1]
  rw [Finset.sum_congr rfl fun j hj => by rw [hbit j (mem_range.mp hj)]]
  exact sum_four_div_mod_two (fun j => leValue (a.take 32) / 2 ^ (64 * j + i) % 2)
    (fun j => Nat.mod_lt _ two_pos) hk

theorem combIndex_lt (a : List UInt8) (i : ℕ) : combIndex a i < 16 := by
  have hf := foldl_or_shiftLeft (fun j => 1 &&& ((a.getD (8 * j + i / 8) 0).toNat >>> (i &&& 7))) 4
    fun _ _ => one_and_lt_two _
  simp only at hf
  simp only [combIndex, hf.1]
  exact hf.2

/-! ## The rounds -/

/-- What the accumulator holds once the rounds down to `n` are done: the 64-bit chunks of
`A`, each shifted right by `n`, at weights `2^(64 k)`. -/
def combScalar (A n : ℕ) : ℕ := ∑ k in range 4, 2 ^ (64 * k) * (A / 2 ^ (64 * k) % 2 ^ 64 / 2 ^ n)

/-- Round `n` doubles and adds bits `64 k + n` of `A` at weights `2^(64 k)`. -/
theorem combScalar_succ (A : ℕ) {n : ℕ} (hn : n < 64) :
    combScalar A n =
      2 * combScalar A (n + 1) + ∑ k in range 4, 2 ^ (64 * k) * (A / 2 ^ (64 * k + n) % 2) := by
  rw [combScalar, combScalar, Finset.mul_sum, ← Finset.sum_add_distrib]
  refine Finset.sum_congr rfl fun k _ => ?_
  rw [show A / 2 ^ (64 * k + n) % 2 = A / 2 ^ (64 * k) % 2 ^ 64 / 2 ^ n % 2 by
      rw [mod_two_pow_div_mod_two _ hn, Nat.div_div_eq_div_mul, ← pow_add],
    pow_succ (2 : ℕ) n, ← Nat.div_div_eq_div_mul]
  generalize A / 2 ^ (64 * k) % 2 ^ 64 / 2 ^ n = z
  calc 2 ^ (64 * k) * z = 2 ^ (64 * k) * (2 * (z / 2) + z % 2) := by rw [Nat.div_add_mod]
    _ = _ := by ring

theorem combScalar_top (A : ℕ) : combScalar A 64 = 0 := by
  simp [combScalar, Nat.div_eq_of_lt (Nat.mod_lt _ (show 0 < 2 ^ 64 by positivity))]

theorem combScalar_zero (A : ℕ) : combScalar A 0 = A % 2 ^ 256 := by
  simp only [combScalar, Finset.sum_range_succ, Finset.sum_range_zero]
  norm_num
  omega

/-- A round doubles the accumulator and adds the selected entry. -/
theorem combRound_rep {a : List UInt8} {multiples : List GePrecomp} {h : GeP3}
    {P E : ed25519.Point} (i : ℕ) (hh : h.Rep P)
    (he : (combSelect multiples (combIndex a i)).Rep E) :
    (combRound a multiples h i).Rep (P + P + E) :=
  (rep_geMadd (rep_x25519GeAdd hh hh.toCached).toP3 he).toP3

/-- The entry of round `i < 64` is `[∑ k, 2^(64 k) * bit (64 k + i) of A] B`. -/
theorem combEntry_combIndex (B : ed25519.Point) (a : List UInt8) {i : ℕ} (hi : i < 64) :
    combEntry B (combIndex a i) =
      (∑ k in range 4, 2 ^ (64 * k) * (leValue (a.take 32) / 2 ^ (64 * k + i) % 2)) • B := by
  rw [combEntry_eq]
  congr 1
  exact Finset.sum_congr rfl fun k hk => by rw [combIndex_div_mod_two a hi (mem_range.mp hk)]

/-- From `[combScalar A n] B`, the rounds `n - 1` down to `0` reach `[combScalar A 0] B`. -/
theorem combRounds_rep (a : List UInt8) {t : List UInt8} (ht : SmallPrecompTable B t) :
    ∀ n ≤ 64, ∀ h : GeP3, h.Rep (combScalar (leValue (a.take 32)) n • B) →
      (combRounds a (smallPrecompMultiples t) n h).Rep (combScalar (leValue (a.take 32)) 0 • B)
  | 0, _, _, hh => hh
  | n + 1, hn, h, hh => by
    refine combRounds_rep a ht n (by omega) _ ?_
    have hround := combRound_rep n hh (combSelect_rep ht (combIndex_lt a n))
    rwa [combScalar_succ _ (by omega), add_nsmul, two_mul, add_nsmul,
      ← combEntry_combIndex B a (by omega)]

theorem scalarmultSmallPrecomp_rep {t : List UInt8} (ht : SmallPrecompTable B t) (a : List UInt8) :
    (x25519GeScalarmultSmallPrecomp a t).Rep (leValue (a.take 32) • B) := by
  have hlt : leValue (a.take 32) < 2 ^ 256 :=
    (leValue_lt _).trans_le ((Nat.pow_le_pow_right (by norm_num) (List.length_take_le 32 a)).trans
      (by norm_num))
  have h := combRounds_rep a ht 64 le_rfl geP30
    (by rw [combScalar_top, zero_smul]; exact GeP3.rep_geP30)
  rwa [combScalar_zero, Nat.mod_eq_of_lt hlt] at h

/-- For any table of the shape `k25519SmallPrecomp` has for a base point `B`, the comb
computes `[a] B`. -/
theorem x25519GeScalarmultSmallPrecomp_spec (B : ed25519.Point) (t : List UInt8)
    (ht : SmallPrecompTable B t) (a : Bytes 32) :
    (x25519GeScalarmultSmallPrecomp a.toList t).Is (leValue a.toList • B) := by
  have h := scalarmultSmallPrecomp_rep ht a.toList
  rw [List.take_of_length_le (by simp)] at h
  exact h.is

/-- Entry `k` of entries of one length `m`, laid end to end, is the `k`-th entry. -/
theorem take_drop_flatten {m : ℕ} :
    ∀ {L : List (List UInt8)} {k : ℕ}, (∀ e ∈ L, e.length = m) → (hk : k < L.length) →
      (L.flatten.drop (k * m)).take m = L[k]
  | e :: _, 0, h, _ => by simp [List.take_left' (h e (List.mem_cons_self _ _))]
  | e :: L, k + 1, h, hk => by
    rw [List.flatten_cons, show (k + 1) * m = m + k * m by ring, ← List.drop_drop,
      List.drop_left' (h e (List.mem_cons_self _ _))]
    exact take_drop_flatten (fun e' he' => h e' (List.mem_cons_of_mem _ he'))
      (Nat.lt_of_succ_lt_succ hk)

/-- The table of base point `B`: entries `j = 1, ..., 15`, each the bytes `x ++ y` of
`combEntry B j`. -/
def smallPrecompTableOf (B : ed25519.Point) : List UInt8 :=
  ((List.range' 1 15).map fun j => feTobytes (combEntry B j).x ++ feTobytes (combEntry B j).y).flatten

/-- Every point has a table of the shape `SmallPrecompTable` asks for. -/
theorem smallPrecompTable_of (B : ed25519.Point) : SmallPrecompTable B (smallPrecompTableOf B) := by
  intro j hj hj'
  refine (take_drop_flatten (fun e he => ?_) (by simp; omega)).trans ?_
  · obtain ⟨_, _, rfl⟩ := List.mem_map.1 he
    simp
  · simp only [List.getElem_map, List.getElem_range', show 1 + 1 * (j - 1) = j by omega]

/-- The comb at the base point's table and the scalar `5`. -/
theorem x25519GeScalarmultSmallPrecomp_basePoint :
    SmallPrecompTable basePoint (smallPrecompTableOf basePoint) ∧
      (x25519GeScalarmultSmallPrecomp (leBytes 32 5) (smallPrecompTableOf basePoint)).Is
        (leValue (leBytes 32 5) • basePoint) :=
  ⟨smallPrecompTable_of basePoint, x25519GeScalarmultSmallPrecomp_spec basePoint _
    (smallPrecompTable_of basePoint) ⟨leBytes 32 5, length_leBytes 32 5⟩⟩

end AvbCurve25519
