import AvbCurve25519.Bytes
import Mathlib.Algebra.BigOperators.Group.Finset
import Mathlib.Algebra.BigOperators.Ring
import Mathlib.Tactic.IntervalCases

/-!
# Sliding-window digits: `slide`

`slide` (`avb_curve25519.c:805-837`) rewrites a 256-bit scalar as signed digits `r[i]`, each
zero or odd with `|r[i]| ≤ 15`, whose sum `∑ r[i] 2^i` is the scalar. It starts from the bits
and, at each nonzero `r[i]`, folds the next up to six bits into it: a bit `b` places higher is
added as `2^b` while the digit stays at most `15`; otherwise it is subtracted, and a carry of
`2^(i + b)` runs up through the bits above.

Whatever the scalar, the digits are zero or odd with `|r[i]| ≤ 15` (`SlideBound`): each
window starts at a bit, and a carry leaves bits behind it. Within one window the first
subtraction happens at `b = 4` and leaves a negative digit; after it any further nonzero
position stops the window (`WindowBound`).

That the digits add up to the scalar needs more. A carry that runs past position `255` is lost,
and for a scalar with bit 255 set one does (`slide_loses_carry`). With bit 255 clear
(`a[31] ≤ 127`), `SlideInv.top` keeps the only way position `255` becomes `1` harmless: once a
carry sets it, every position between the current one and `255` is zero, so no later window
reaches it.
-/

namespace AvbCurve25519

open Finset

/-! ## The code -/

/-- The first loop of `slide` (`avb_curve25519.c:810-812`): `r[i]` is bit `i` of `a`. -/
def slideInit (a : List UInt8) : ℕ → ℤ := fun i =>
  if i < 256 then ((1 &&& ((a.getD (i >>> 3) 0).toNat >>> (i &&& 7)) : ℕ) : ℤ) else 0

/-- The carry `for (k = i + b; k < 256; ++k) { if (!r[k]) { r[k] = 1; break; } r[k] = 0; }`
(`avb_curve25519.c:824-830`). -/
def slideCarry (r : ℕ → ℤ) (k : ℕ) : ℕ → ℤ :=
  if k < 256 then
    if r k = 0 then Function.update r k 1 else slideCarry (Function.update r k 0) (k + 1)
  else r
termination_by 256 - k

/-- The window `for (b = 1; b <= 6 && i + b < 256; ++b)` at a nonzero `r[i]`
(`avb_curve25519.c:816-833`). `r[i + b] << b` is `r[i + b] * 2^b`: positions above `i` hold
`0` or `1`. -/
def slideWindow (i : ℕ) (r : ℕ → ℤ) (b : ℕ) : ℕ → ℤ :=
  if b ≤ 6 ∧ i + b < 256 then
    if r (i + b) ≠ 0 then
      if r i + r (i + b) * 2 ^ b ≤ 15 then
        slideWindow i
          (Function.update (Function.update r i (r i + r (i + b) * 2 ^ b)) (i + b) 0) (b + 1)
      else if r i - r (i + b) * 2 ^ b ≥ -15 then
        slideWindow i (slideCarry (Function.update r i (r i - r (i + b) * 2 ^ b)) (i + b)) (b + 1)
      else r
    else slideWindow i r (b + 1)
  else r
termination_by 7 - b

/-- One pass of the second loop of `slide` (`avb_curve25519.c:814-835`). -/
def slideStep (r : ℕ → ℤ) (i : ℕ) : ℕ → ℤ :=
  if r i ≠ 0 then slideWindow i r 1 else r

/-- `slide` (`avb_curve25519.c:805-837`): the digits `r[0..255]`. -/
def slide (a : List UInt8) : ℕ → ℤ :=
  (List.range 256).foldl slideStep (slideInit a)

/-- The value `∑ r[k] 2^k` of the digits. -/
def digitsValue (r : ℕ → ℤ) : ℤ := ∑ k in range 256, r k * 2 ^ k

/-! ## Values -/

theorem digitsValue_update (r : ℕ → ℤ) {k : ℕ} (hk : k < 256) (v : ℤ) :
    digitsValue (Function.update r k v) = digitsValue r + (v - r k) * 2 ^ k := by
  have hterm : ∀ j ∈ range 256, Function.update r k v j * 2 ^ j =
      r j * 2 ^ j + if k = j then (v - r k) * 2 ^ k else 0 := by
    intro j _
    by_cases h : k = j
    · subst h; simp only [Function.update_same, if_true]; ring
    · simp [h, Function.update_noteq (Ne.symm h)]
  rw [digitsValue, Finset.sum_congr rfl hterm, Finset.sum_add_distrib, Finset.sum_ite_eq,
    if_pos (mem_range.mpr hk)]
  rfl

/-- The bits of `A`, weighted, add up to `A mod 2^n`. -/
theorem sum_bits (A n : ℕ) : ∑ k in range n, (A / 2 ^ k % 2) * 2 ^ k = A % 2 ^ n := by
  induction n with
  | zero => simp [Nat.mod_one]
  | succ n ih => rw [Finset.sum_range_succ, ih, Nat.mod_pow_succ]; ring

theorem slideInit_eq (a : List UInt8) {i : ℕ} (hi : i < 256) :
    slideInit a i = ((leValue a / 2 ^ i % 2 : ℕ) : ℤ) := by
  rw [slideInit, if_pos hi, Nat.and_comm, Nat.and_one_is_mod, Nat.shiftRight_eq_div_pow,
    Nat.shiftRight_eq_div_pow, show i &&& 7 = i % 8 by
      rw [show (7 : ℕ) = 2 ^ 3 - 1 from rfl, Nat.and_pow_two_sub_one_eq_mod],
    show i / 2 ^ 3 = i / 8 from rfl, getD_div_mod_two]

theorem digitsValue_slideInit (a : List UInt8) :
    digitsValue (slideInit a) = ((leValue a % 2 ^ 256 : ℕ) : ℤ) := by
  rw [digitsValue, ← sum_bits, Nat.cast_sum]
  refine Finset.sum_congr rfl fun k hk => ?_
  rw [slideInit_eq a (mem_range.mp hk)]
  push_cast
  ring

/-! ## The carry -/

/-- What the carry does where the positions from `c` on are bits: it keeps the positions below
`c`, leaves bits from `c` on, and clears `r[c]` when it was set. -/
structure CarryBits (r r' : ℕ → ℤ) (c : ℕ) : Prop where
  low : ∀ k < c, r' k = r k
  bits : ∀ k, c ≤ k → k < 256 → r' k = 0 ∨ r' k = 1
  first : c < 256 → r c = 1 → r' c = 0

theorem slideCarry_bits (r : ℕ → ℤ) (c : ℕ)
    (hbits : ∀ k, c ≤ k → k < 256 → r k = 0 ∨ r k = 1) : CarryBits r (slideCarry r c) c := by
  rw [slideCarry]
  split_ifs with hc h0
  · refine ⟨fun k hk => Function.update_noteq (by omega) _ _, fun k hk hk' => ?_,
      fun _ h1 => absurd (h0.symm.trans h1) zero_ne_one⟩
    by_cases hkc : k = c
    · subst hkc; simp
    · rw [Function.update_noteq hkc]; exact hbits k (by omega) hk'
  · have ih := slideCarry_bits (Function.update r c 0) (c + 1)
      fun k hk hk' => by rw [Function.update_noteq (by omega)]; exact hbits k (by omega) hk'
    have hc0 : slideCarry (Function.update r c 0) (c + 1) c = 0 := by
      rw [ih.low c (by omega), Function.update_same]
    refine ⟨fun k hk => ?_, fun k hk hk' => ?_, fun _ _ => hc0⟩
    · rw [ih.low k (by omega), Function.update_noteq (by omega)]
    · rcases Nat.eq_or_lt_of_le hk with rfl | hk
      · exact Or.inl hc0
      · exact ih.bits k hk hk'
  · exact ⟨fun _ _ => rfl, hbits, fun h => absurd h hc⟩
termination_by 256 - c

/-- Over bits with a clear top position the carry adds `2^c`, and if it sets position `255` it
has cleared every position from `c` up to it. -/
structure CarryDone (r r' : ℕ → ℤ) (c : ℕ) : Prop where
  value : digitsValue r' = digitsValue r + 2 ^ c
  top : r' 255 = 1 → ∀ k, c ≤ k → k < 255 → r' k = 0

theorem slideCarry_done (r : ℕ → ℤ) (c : ℕ) (hc : c ≤ 255)
    (hbits : ∀ k, c ≤ k → k < 256 → r k = 0 ∨ r k = 1) (h255 : r 255 = 0) :
    CarryDone r (slideCarry r c) c := by
  have hb := slideCarry_bits r c hbits
  rw [slideCarry, if_pos (by omega)] at hb ⊢
  split_ifs at hb ⊢ with h0
  · refine ⟨by rw [digitsValue_update _ (by omega), h0]; ring, fun h k hk hk' => ?_⟩
    by_cases h255c : c = 255
    · omega
    · rw [Function.update_noteq (Ne.symm h255c), h255] at h; exact absurd h (by norm_num)
  · have h1 : r c = 1 := (hbits c le_rfl (by omega)).resolve_left h0
    have hc' : c < 255 := lt_of_le_of_ne hc (by rintro rfl; rw [h255] at h1; norm_num at h1)
    have ih := slideCarry_done (Function.update r c 0) (c + 1) (by omega)
      (fun k hk hk' => by rw [Function.update_noteq (by omega)]; exact hbits k (by omega) hk')
      (by rw [Function.update_noteq (by omega)]; exact h255)
    refine ⟨by rw [ih.value, digitsValue_update _ (by omega), h1, pow_succ]; ring,
      fun h k hk hk' => ?_⟩
    rcases Nat.eq_or_lt_of_le hk with rfl | hk
    · exact hb.first (by omega) h1
    · exact ih.top h k hk hk'
termination_by 256 - c

/-! ## The window -/

section Window

variable {r0 r : ℕ → ℤ} {i b : ℕ}

/-- What holds at a step `b ≥ 1` of the window at `r[i]` and is kept by a skip, an absorption
and a subtraction holds, at some step, when the window stops. -/
theorem slideWindow_induction (I : (ℕ → ℤ) → ℕ → Prop)
    (skip : ∀ r b, I r b → r (i + b) = 0 → I r (b + 1))
    (absorb : ∀ r b, I r b → 1 ≤ b → i + b < 256 → r (i + b) ≠ 0 →
      r i + r (i + b) * 2 ^ b ≤ 15 →
        I (Function.update (Function.update r i (r i + r (i + b) * 2 ^ b)) (i + b) 0) (b + 1))
    (sub : ∀ r b, I r b → 1 ≤ b → b ≤ 6 → i + b < 256 → r (i + b) ≠ 0 →
      ¬r i + r (i + b) * 2 ^ b ≤ 15 → r i - r (i + b) * 2 ^ b ≥ -15 →
        I (slideCarry (Function.update r i (r i - r (i + b) * 2 ^ b)) (i + b)) (b + 1))
    (b : ℕ) (r : ℕ → ℤ) (hb : 1 ≤ b) (h : I r b) : ∃ b', I (slideWindow i r b) b' := by
  rw [slideWindow]
  split_ifs with hc hnz hle hge
  · exact slideWindow_induction I skip absorb sub (b + 1) _ (by omega)
      (absorb r b h hb hc.2 hnz hle)
  · exact slideWindow_induction I skip absorb sub (b + 1) _ (by omega)
      (sub r b h hb hc.1 hc.2 hnz hle hge)
  · exact ⟨b, h⟩
  · exact slideWindow_induction I skip absorb sub (b + 1) _ (by omega)
      (skip r b h (not_not.mp hnz))
  · exact ⟨b, h⟩
termination_by 7 - b

/-- The window at `r[i]` before step `b`: the positions below `i` are those of the entry state
`r0`, positions above `i` are bits, and `r[i]` is odd, either positive, below `2^b` and `16`,
or negative after the one subtraction (at `b = 4`). -/
structure WindowBound (r0 : ℕ → ℤ) (i : ℕ) (r : ℕ → ℤ) (b : ℕ) : Prop where
  low : ∀ k < i, r k = r0 k
  bits : ∀ k, i < k → k < 256 → r k = 0 ∨ r k = 1
  odd : r i % 2 = 1
  digit : (1 ≤ r i ∧ r i ≤ 15 ∧ r i < 2 ^ b) ∨ (-15 ≤ r i ∧ r i ≤ -1 ∧ 5 ≤ b)

/-- Over bits with a clear top position, also: the value is that of `r0`, the positions
between `i` and `i + b` are clear, and position `255` is set only after the subtraction, with
every position between clear. -/
structure WindowInv (r0 : ℕ → ℤ) (i : ℕ) (r : ℕ → ℤ) (b : ℕ)
    extends WindowBound r0 i r b : Prop where
  value : digitsValue r = digitsValue r0
  zeros : ∀ k, i < k → k < i + b → r k = 0
  top : r 255 = 1 → r i ≤ -1 ∧ ∀ k, i < k → k < 255 → r k = 0

theorem windowBound_init (hbits : ∀ k, i < k → k < 256 → r k = 0 ∨ r k = 1)
    (h1 : r i = 1) : WindowBound r i r 1 :=
  ⟨fun _ _ => rfl, hbits, by rw [h1]; rfl, Or.inl (by rw [h1]; norm_num)⟩

theorem WindowBound.digit_bound (h : WindowBound r0 i r b) : -15 ≤ r i ∧ r i ≤ 15 := by
  rcases h.digit with h | h <;> omega

theorem two_pow_le_of_five_le (hb : 5 ≤ b) : (32 : ℤ) ≤ 2 ^ b :=
  calc (32 : ℤ) = 2 ^ 5 := by norm_num
    _ ≤ 2 ^ b := pow_le_pow_right₀ (by norm_num) hb

/-- Only a positive digit absorbs a set position. -/
theorem WindowBound.pos_of_absorb (h : WindowBound r0 i r b) (hle : r i + 2 ^ b ≤ 15) :
    1 ≤ r i ∧ r i < 2 ^ b := by
  rcases h.digit with h' | h'
  · exact ⟨h'.1, h'.2.2⟩
  · have := two_pow_le_of_five_le h'.2.2; omega

/-- A set position is subtracted only at `b = 4`, from a positive digit. -/
theorem WindowBound.eq_four_of_sub (h : WindowBound r0 i r b) (hb6 : b ≤ 6)
    (hgt : ¬r i + 2 ^ b ≤ 15) (hge : r i - 2 ^ b ≥ -15) :
    b = 4 ∧ 1 ≤ r i ∧ r i ≤ 15 := by
  have hpos : (1 : ℤ) ≤ r i ∧ r i ≤ 15 ∧ r i < 2 ^ b := by
    rcases h.digit with h' | h'
    · exact h'
    · have := two_pow_le_of_five_le h'.2.2; omega
  refine ⟨?_, hpos.1, hpos.2.1⟩
  interval_cases b <;> norm_num at hpos hgt hge ⊢ <;> omega

/-- A clear position `i + b` is skipped. -/
theorem WindowBound.skip (h : WindowBound r0 i r b) : WindowBound r0 i r (b + 1) :=
  ⟨h.low, h.bits, h.odd, by
    have : (2 : ℤ) ^ (b + 1) = 2 * 2 ^ b := by rw [pow_succ']
    rcases h.digit with h | h <;> omega⟩

/-- A set position `i + b` is added in while the digit stays at most `15`. -/
theorem WindowBound.absorb (h : WindowBound r0 i r b) (hib : i + b < 256) (hb1 : 1 ≤ b)
    (hnz : r (i + b) ≠ 0) (hle : r i + r (i + b) * 2 ^ b ≤ 15) :
    WindowBound r0 i
      (Function.update (Function.update r i (r i + r (i + b) * 2 ^ b)) (i + b) 0) (b + 1) := by
  have h1 : r (i + b) = 1 := (h.bits (i + b) (by omega) hib).resolve_left hnz
  have hne : i + b ≠ i := by omega
  rw [h1, one_mul] at hle ⊢
  have hpos := h.pos_of_absorb hle
  obtain ⟨c, hc⟩ : ∃ c, (2 : ℤ) ^ b = 2 * c := ⟨2 ^ (b - 1), by rw [← pow_succ']; congr 1; omega⟩
  have hsucc : (2 : ℤ) ^ (b + 1) = 2 * 2 ^ b := by rw [pow_succ']
  have hri :
      Function.update (Function.update r i (r i + 2 ^ b)) (i + b) 0 i = r i + 2 ^ b := by
    rw [Function.update_noteq (Ne.symm hne), Function.update_same]
  refine ⟨fun k hk => ?_, fun k hk hk' => ?_, ?_, ?_⟩
  · rw [Function.update_noteq (by omega), Function.update_noteq (by omega), h.low k hk]
  · by_cases hkb : k = i + b
    · subst hkb; simp
    · rw [Function.update_noteq hkb, Function.update_noteq (by omega)]; exact h.bits k hk hk'
  · rw [hri]; have := h.odd; omega
  · rw [hri]; left; omega

/-- A set position `i + b` that cannot be added in is subtracted, with a carry from `i + b`.
This happens only at `b = 4`, from a positive digit, and leaves a negative one. -/
theorem WindowBound.sub (h : WindowBound r0 i r b) (hib : i + b < 256) (hb1 : 1 ≤ b)
    (hb6 : b ≤ 6) (hnz : r (i + b) ≠ 0) (hgt : ¬r i + r (i + b) * 2 ^ b ≤ 15)
    (hge : r i - r (i + b) * 2 ^ b ≥ -15) :
    WindowBound r0 i (slideCarry (Function.update r i (r i - r (i + b) * 2 ^ b)) (i + b))
      (b + 1) := by
  have h1 : r (i + b) = 1 := (h.bits (i + b) (by omega) hib).resolve_left hnz
  rw [h1, one_mul] at hgt hge ⊢
  obtain ⟨rfl, hpos⟩ := h.eq_four_of_sub hb6 hgt hge
  have hlow : ∀ k, k ≠ i → Function.update r i (r i - 2 ^ 4) k = r k :=
    fun k hk => Function.update_noteq hk _ _
  have hc := slideCarry_bits (Function.update r i (r i - 2 ^ 4)) (i + 4)
    fun k hk hk' => by rw [hlow k (by omega)]; exact h.bits k (by omega) hk'
  have hci : slideCarry (Function.update r i (r i - 2 ^ 4)) (i + 4) i = r i - 16 := by
    rw [hc.low i (by omega), Function.update_same]; norm_num
  refine ⟨fun k hk => ?_, fun k hk hk' => ?_, ?_, ?_⟩
  · rw [hc.low k (by omega), hlow k (by omega), h.low k hk]
  · rcases Nat.lt_or_ge k (i + 4) with hk4 | hk4
    · rw [hc.low k hk4, hlow k (by omega)]; exact h.bits k hk hk'
    · exact hc.bits k hk4 hk'
  · rw [hci]; have := h.odd; omega
  · rw [hci]; right; omega

theorem WindowInv.skip (h : WindowInv r0 i r b) (hz : r (i + b) = 0) :
    WindowInv r0 i r (b + 1) :=
  ⟨h.toWindowBound.skip, h.value, fun k hk hk' => by
    rcases Nat.lt_or_ge k (i + b) with hkb | hkb
    · exact h.zeros k hk hkb
    · rw [show k = i + b by omega]; exact hz, h.top⟩

theorem WindowInv.absorb (h : WindowInv r0 i r b) (hib : i + b < 256) (hb1 : 1 ≤ b)
    (hnz : r (i + b) ≠ 0) (hle : r i + r (i + b) * 2 ^ b ≤ 15) :
    WindowInv r0 i
      (Function.update (Function.update r i (r i + r (i + b) * 2 ^ b)) (i + b) 0) (b + 1) := by
  have h1 : r (i + b) = 1 := (h.bits (i + b) (by omega) hib).resolve_left hnz
  have hne : i + b ≠ i := by omega
  refine ⟨h.toWindowBound.absorb hib hb1 hnz hle, ?_, fun k hk hk' => ?_, fun h255 => ?_⟩
  · rw [digitsValue_update _ hib, Function.update_noteq hne, digitsValue_update _ (by omega),
      h.value, h1, pow_add]
    ring
  · by_cases hkb : k = i + b
    · subst hkb; simp
    · rw [Function.update_noteq hkb, Function.update_noteq (by omega)]
      exact h.zeros k hk (by omega)
  · exfalso
    by_cases hb255 : i + b = 255
    · rw [← hb255, Function.update_same] at h255; norm_num at h255
    · rw [Function.update_noteq (Ne.symm hb255), Function.update_noteq (by omega)] at h255
      have := (h.toWindowBound.pos_of_absorb (by rwa [h1, one_mul] at hle)).1
      have := (h.top h255).1
      omega

theorem WindowInv.sub (h : WindowInv r0 i r b) (hib : i + b < 256) (hb1 : 1 ≤ b)
    (hb6 : b ≤ 6) (hnz : r (i + b) ≠ 0) (hgt : ¬r i + r (i + b) * 2 ^ b ≤ 15)
    (hge : r i - r (i + b) * 2 ^ b ≥ -15) :
    WindowInv r0 i (slideCarry (Function.update r i (r i - r (i + b) * 2 ^ b)) (i + b))
      (b + 1) := by
  have hB := h.toWindowBound.sub hib hb1 hb6 hnz hgt hge
  have h1 : r (i + b) = 1 := (h.bits (i + b) (by omega) hib).resolve_left hnz
  rw [h1, one_mul] at hgt hge hB ⊢
  obtain ⟨rfl, hpos⟩ := h.eq_four_of_sub hb6 hgt hge
  have h255 : r 255 = 0 :=
    (h.bits 255 (by omega) (by norm_num)).resolve_right fun h' => by
      have := (h.top h').1; omega
  have hlow : ∀ k, k ≠ i → Function.update r i (r i - 2 ^ 4) k = r k :=
    fun k hk => Function.update_noteq hk _ _
  have hbits : ∀ k, i + 4 ≤ k → k < 256 →
      Function.update r i (r i - 2 ^ 4) k = 0 ∨ Function.update r i (r i - 2 ^ 4) k = 1 :=
    fun k hk hk' => by rw [hlow k (by omega)]; exact h.bits k (by omega) hk'
  have hc := slideCarry_bits _ _ hbits
  have hd := slideCarry_done _ _ (by omega) hbits (by rw [hlow 255 (by omega)]; exact h255)
  have hci : slideCarry (Function.update r i (r i - 2 ^ 4)) (i + 4) i = r i - 16 := by
    rw [hc.low i (by omega), Function.update_same]; norm_num
  refine ⟨hB, ?_, fun k hk hk' => ?_, fun h' => ⟨by rw [hci]; omega, fun k hk hk' => ?_⟩⟩
  · rw [hd.value, digitsValue_update _ (by omega), h.value, pow_add]; ring
  · rcases Nat.lt_or_ge k (i + 4) with hk4 | hk4
    · rw [hc.low k hk4, hlow k (by omega)]; exact h.zeros k hk hk4
    · rw [show k = i + 4 by omega]; exact hc.first (by omega) (by rw [hlow _ (by omega), h1])
  · rcases Nat.lt_or_ge k (i + 4) with hk4 | hk4
    · rw [hc.low k hk4, hlow k (by omega)]; exact h.zeros k hk hk4
    · exact hd.top h' k hk4 hk'

/-- The window at a set `r[i]` stops with an odd digit `|r[i]| ≤ 15`, the lower positions
unchanged and bits above. -/
theorem slideWindow_bound (hbits : ∀ k, i < k → k < 256 → r k = 0 ∨ r k = 1)
    (h1 : r i = 1) : ∃ b, WindowBound r i (slideWindow i r 1) b :=
  slideWindow_induction (WindowBound r i) (fun _ _ h _ => h.skip)
    (fun _ _ h hb hib hnz hle => h.absorb hib hb hnz hle)
    (fun _ _ h hb hb6 hib hnz hgt hge => h.sub hib hb hb6 hnz hgt hge) 1 r le_rfl
    (windowBound_init hbits h1)

/-- Over bits with a clear top position the window also keeps the value, and leaves
position `255` set only above clear positions. -/
theorem slideWindow_inv (hbits : ∀ k, i < k → k < 256 → r k = 0 ∨ r k = 1) (h1 : r i = 1)
    (h255 : r 255 = 0) : ∃ b, WindowInv r i (slideWindow i r 1) b :=
  slideWindow_induction (WindowInv r i) (fun _ _ h hz => h.skip hz)
    (fun _ _ h hb hib hnz hle => h.absorb hib hb hnz hle)
    (fun _ _ h hb hb6 hib hnz hgt hge => h.sub hib hb hb6 hnz hgt hge) 1 r le_rfl
    ⟨windowBound_init hbits h1, rfl, fun _ _ _ => by omega,
      fun h' => by rw [h255] at h'; norm_num at h'⟩

end Window

/-! ## The digits -/

/-- Before pass `i` of the second loop: positions from `i` on are bits, and the digits below
`i` are zero or odd with `|r[k]| ≤ 15`. -/
structure SlideBound (r : ℕ → ℤ) (i : ℕ) : Prop where
  bits : ∀ k, i ≤ k → k < 256 → r k = 0 ∨ r k = 1
  digits : ∀ k < i, r k = 0 ∨ (r k % 2 = 1 ∧ -15 ≤ r k ∧ r k ≤ 15)

/-- For a scalar with bit 255 clear, also: the value is `A`, and position `255` is set only
above clear positions. -/
structure SlideInv (A : ℤ) (r : ℕ → ℤ) (i : ℕ) extends SlideBound r i : Prop where
  value : digitsValue r = A
  top : r 255 = 1 → ∀ k, i ≤ k → k < 255 → r k = 0

theorem SlideBound.step {r : ℕ → ℤ} {i : ℕ} (h : SlideBound r i) (hi : i < 256) :
    SlideBound (slideStep r i) (i + 1) := by
  rw [slideStep]
  split_ifs with hnz
  · obtain ⟨b, hw⟩ := slideWindow_bound (fun k hk hk' => h.bits k (by omega) hk')
      ((h.bits i le_rfl hi).resolve_left hnz)
    refine ⟨fun k hk hk' => hw.bits k (by omega) hk', fun k hk => ?_⟩
    rcases Nat.lt_or_ge k i with hki | hki
    · rw [hw.low k hki]; exact h.digits k hki
    · rw [show k = i by omega]; exact Or.inr ⟨hw.odd, hw.digit_bound⟩
  · refine ⟨fun k hk hk' => h.bits k (by omega) hk', fun k hk => ?_⟩
    rcases Nat.lt_or_ge k i with hki | hki
    · exact h.digits k hki
    · left; rw [show k = i by omega]; exact not_not.mp hnz

theorem SlideInv.step {A : ℤ} {r : ℕ → ℤ} {i : ℕ} (h : SlideInv A r i) (hi : i < 256) :
    SlideInv A (slideStep r i) (i + 1) := by
  have hb := h.toSlideBound.step hi
  rw [slideStep] at hb ⊢
  split_ifs at hb ⊢ with hnz
  · have h1 : r i = 1 := (h.bits i le_rfl hi).resolve_left hnz
    rcases Nat.lt_or_ge i 255 with hi' | hi'
    · have h255 : r 255 = 0 := (h.bits 255 (by omega) (by norm_num)).resolve_right
        fun h' => hnz (h.top h' i le_rfl hi')
      obtain ⟨b, hw⟩ := slideWindow_inv (fun k hk hk' => h.bits k (by omega) hk') h1 h255
      exact ⟨hb, hw.value.trans h.value, fun h' k hk hk' => (hw.top h').2 k (by omega) hk'⟩
    · obtain rfl : i = 255 := by omega
      rw [slideWindow, if_neg (by omega)] at hb ⊢
      exact ⟨hb, h.value, fun _ k hk hk' => by omega⟩
  · exact ⟨hb, h.value, fun h' k hk hk' => h.top h' k (by omega) hk'⟩

/-- What every pass keeps holds, from `i = 0`, after the passes below `n`. -/
theorem foldl_slideStep_induction (I : (ℕ → ℤ) → ℕ → Prop)
    (step : ∀ r i, i < 256 → I r i → I (slideStep r i) (i + 1)) {r : ℕ → ℤ}
    (h : I r 0) : ∀ n ≤ 256, I ((List.range n).foldl slideStep r) n
  | 0, _ => h
  | n + 1, hn => by
    rw [List.range_succ, List.foldl_append, List.foldl_cons, List.foldl_nil]
    exact step _ n (by omega) (foldl_slideStep_induction I step h n (by omega))

theorem slideInv_foldl {A : ℤ} {r : ℕ → ℤ} (h : SlideInv A r 0) :
    ∀ n ≤ 256, SlideInv A ((List.range n).foldl slideStep r) n :=
  foldl_slideStep_induction (SlideInv A) (fun _ _ hi h => h.step hi) h

theorem slideBound_init (a : List UInt8) : SlideBound (slideInit a) 0 where
  bits k _ hk := by
    rw [slideInit_eq a hk]
    rcases Nat.mod_two_eq_zero_or_one (leValue a / 2 ^ k) with h | h <;> simp [h]
  digits k hk := absurd hk (Nat.not_lt_zero k)

theorem slideInv_init (a : List UInt8) (ha : leValue a < 2 ^ 255) :
    SlideInv (leValue a) (slideInit a) 0 where
  toSlideBound := slideBound_init a
  value := by rw [digitsValue_slideInit, Nat.mod_eq_of_lt (ha.trans (by norm_num))]
  top h := by rw [slideInit_eq a (by norm_num), Nat.div_eq_of_lt ha] at h; norm_num at h

/-- Whatever the scalar, `slide` writes digits that are zero or odd with `|r[k]| ≤ 15`. -/
theorem slide_digits (a : List UInt8) :
    ∀ k < 256, slide a k = 0 ∨ (slide a k % 2 = 1 ∧ -15 ≤ slide a k ∧ slide a k ≤ 15) :=
  (foldl_slideStep_induction SlideBound (fun _ _ hi h => h.step hi) (slideBound_init a) 256
    le_rfl).digits

/-- For a scalar below `2^255`, the digits of `slide` also add up to the scalar. -/
theorem slide_spec (a : List UInt8) (ha : leValue a < 2 ^ 255) :
    digitsValue (slide a) = leValue a ∧
      ∀ k < 256, slide a k = 0 ∨ (slide a k % 2 = 1 ∧ -15 ≤ slide a k ∧ slide a k ≤ 15) :=
  ⟨(slideInv_foldl (slideInv_init a ha) 256 le_rfl).value, slide_digits a⟩

/-! ## A scalar with bit 255 set -/

/-- A carry through ones up to position `255` clears them and is lost. -/
theorem slideCarry_of_ones (r : ℕ → ℤ) (c : ℕ) (h : ∀ k, c ≤ k → k < 256 → r k = 1) :
    slideCarry r c = fun k => if c ≤ k ∧ k < 256 then 0 else r k := by
  rw [slideCarry]
  split_ifs with hc hc0
  · rw [h c le_rfl hc] at hc0; exact absurd hc0 one_ne_zero
  · rw [slideCarry_of_ones _ (c + 1) fun k hk hk' => by
      rw [Function.update_noteq (by omega)]; exact h k (by omega) hk']
    funext k
    by_cases hkc : k = c
    · subst hkc; simp [hc]
    · rw [Function.update_noteq hkc]
      by_cases hk : c ≤ k ∧ k < 256
      · rw [if_pos (by omega), if_pos hk]
      · rw [if_neg (by omega), if_neg hk]
  · funext k; rw [if_neg (by omega)]
termination_by 256 - c

/-- A window whose positions above `i` are all zero changes nothing. -/
theorem slideWindow_of_zero (i : ℕ) (r : ℕ → ℤ) {b : ℕ} (hb1 : 1 ≤ b)
    (h : ∀ k, i < k → r k = 0) : slideWindow i r b = r := by
  rw [slideWindow]
  by_cases hb : b ≤ 6 ∧ i + b < 256
  · rw [if_pos hb, if_neg (not_not.mpr (h _ (by omega)))]
    exact slideWindow_of_zero i r (by omega) h
  · rw [if_neg hb]
termination_by 7 - b

/-- Steps at positions where the digit is zero change nothing. -/
theorem foldl_slideStep_of_zero (r : ℕ → ℤ) (l : List ℕ) (h : ∀ i ∈ l, r i = 0) :
    l.foldl slideStep r = r := by
  induction l with
  | nil => rfl
  | cons i l ih =>
    rw [List.foldl_cons, slideStep, if_neg (not_not.mpr (h i (List.mem_cons_self i l)))]
    exact ih fun j hj => h j (List.mem_cons_of_mem i hj)

/-- The digits while the window at position `0` runs over the scalar of ones: `r[0] = v`,
zeros below position `c` and ones from `c` to `255`. -/
def onesFrom (v : ℤ) (c : ℕ) : ℕ → ℤ := fun k =>
  if k = 0 then v else if c ≤ k ∧ k < 256 then 1 else 0

theorem slideInit_ones : slideInit (List.replicate 32 255) = onesFrom 1 1 := by
  have hv : leValue (List.replicate 32 255) = 2 ^ 256 - 1 := by decide
  funext k
  by_cases hk : k < 256
  · have hbit : (2 ^ 256 - 1) / 2 ^ k % 2 = 1 := by
      have := Nat.testBit_two_pow_sub_one 256 k
      rw [Nat.testBit_to_div_mod, decide_eq_decide] at this
      exact this.mpr hk
    rw [slideInit_eq _ hk, hv, hbit, onesFrom]
    split_ifs <;> first | rfl | omega
  · rw [slideInit, if_neg hk, onesFrom, if_neg (by omega), if_neg (by omega)]

/-- While `r[0] = 2^b - 1` and `r[0] + 2^b ≤ 15`, the window adds the one at position `b`
into `r[0]`. -/
theorem slideWindow_ones_absorb {v : ℤ} {b : ℕ} (hv : v = 2 ^ b - 1) (hb1 : 1 ≤ b) (hb : b ≤ 3) :
    slideWindow 0 (onesFrom v b) b = slideWindow 0 (onesFrom (2 * v + 1) (b + 1)) (b + 1) := by
  have h2b : (2 : ℤ) ^ b = v + 1 := by rw [hv]; ring
  have hpow : (2 : ℤ) ^ b ≤ 8 :=
    (pow_le_pow_right₀ (by norm_num) hb).trans (by norm_num)
  have hone : onesFrom v b (0 + b) = 1 := by
    rw [onesFrom, zero_add, if_neg (by omega), if_pos ⟨le_rfl, by omega⟩]
  have hzero : onesFrom v b 0 = v := rfl
  rw [slideWindow, if_pos ⟨hb.trans (by norm_num), by omega⟩, if_pos (by rw [hone]; norm_num),
    if_pos (by rw [hone, hzero, h2b] at *; linarith)]
  refine congrArg (fun r => slideWindow 0 r (b + 1)) (funext fun k => ?_)
  simp only [Function.update_apply, onesFrom, zero_add]
  split_ifs <;> omega

/-- At `b = 4` the window subtracts `16` from `r[0] = 15`, and the carry runs through the ones
above and is lost: only `r[0] = -1` is left. -/
theorem slideWindow_ones_carry :
    slideWindow 0 (onesFrom 15 4) 4 = fun k => if k = 0 then -1 else 0 := by
  have h4 : onesFrom 15 4 (0 + 4) = 1 := rfl
  have h0 : onesFrom 15 4 0 = 15 := rfl
  have hcarry := slideCarry_of_ones (Function.update (onesFrom 15 4) 0 (-1)) 4
    fun k hk hk' => by
      rw [Function.update_noteq (by omega), onesFrom, if_neg (by omega), if_pos ⟨hk, hk'⟩]
  have hfin : (fun k => if 4 ≤ k ∧ k < 256 then 0 else Function.update (onesFrom 15 4) 0 (-1) k) =
      fun k => if k = 0 then -1 else 0 := by
    funext k
    simp only [Function.update_apply, onesFrom]
    split_ifs <;> first | rfl | omega
  rw [slideWindow, if_pos ⟨by norm_num, by norm_num⟩, if_pos (by rw [h4]; norm_num),
    if_neg (by rw [h4, h0]; norm_num), if_pos (by rw [h4, h0]; norm_num), h4, h0,
    show (15 : ℤ) - 1 * 2 ^ 4 = -1 by norm_num, zero_add, hcarry, hfin]
  exact slideWindow_of_zero 0 _ (by norm_num) fun k hk => if_neg (by omega)

/-- For the scalar `2^256 - 1` (every byte `0xff`) the carry started at `b = 4` runs past
position `255` and is lost: `slide` leaves `r[0] = -1` and zero elsewhere, whose value `-1`
is not the scalar. -/
theorem slide_loses_carry :
    slide (List.replicate 32 255) = (fun k => if k = 0 then -1 else 0) ∧
      digitsValue (slide (List.replicate 32 255)) = -1 ∧
      leValue (List.replicate 32 255) = 2 ^ 256 - 1 := by
  have hwindow : slideWindow 0 (onesFrom 1 1) 1 = fun k => if k = 0 then -1 else 0 :=
    calc slideWindow 0 (onesFrom 1 1) 1
        = slideWindow 0 (onesFrom 3 2) 2 := slideWindow_ones_absorb (by norm_num) le_rfl (by norm_num)
      _ = slideWindow 0 (onesFrom 7 3) 3 := slideWindow_ones_absorb (by norm_num) (by norm_num) (by norm_num)
      _ = slideWindow 0 (onesFrom 15 4) 4 := slideWindow_ones_absorb (by norm_num) (by norm_num) le_rfl
      _ = fun k => if k = 0 then -1 else 0 := slideWindow_ones_carry
  have hslide : slide (List.replicate 32 255) = fun k => if k = 0 then -1 else 0 := by
    rw [slide, slideInit_ones, List.range_succ_eq_map, List.foldl_cons, slideStep,
      if_pos (by norm_num [onesFrom]), hwindow]
    exact foldl_slideStep_of_zero _ _ fun i hi => by
      obtain ⟨j, -, rfl⟩ := List.mem_map.mp hi
      exact if_neg (Nat.succ_ne_zero j)
  refine ⟨hslide, ?_, by decide⟩
  rw [hslide, digitsValue]
  simp [Finset.sum_ite_eq']

end AvbCurve25519
