import Mathlib.Data.Vector.Basic
import Mathlib.Tactic.Ring
import Mathlib.Tactic.Linarith

/-!
# Byte strings and little-endian loads

The `uint8_t` buffers of `avb_curve25519.c` and the two loads that read scalars out of them,
`load_3` and `load_4` (`avb_curve25519.c:79-94`). A buffer of fixed size is a list of bytes
whose length is part of its type; its meaning as a number is always little-endian.
-/

namespace AvbCurve25519

/-- A `uint8_t[n]` buffer. -/
abbrev Bytes (n : ℕ) := Mathlib.Vector UInt8 n

/-- The little-endian value `s[0] + 256 * s[1] + ...` of a byte string. -/
def leValue : List UInt8 → ℕ
  | [] => 0
  | b :: t => b.toNat + 256 * leValue t

/-- The `n` little-endian bytes of `v`, that is of `v % 256 ^ n`. -/
def leBytes : ℕ → ℕ → List UInt8
  | 0, _ => []
  | n + 1, v => UInt8.ofNat (v % 256) :: leBytes n (v / 256)

/-- `load_3` (`avb_curve25519.c:79-85`): three bytes from offset `o`, combined in a
`uint64_t`. -/
def load3 (s : List UInt8) (o : ℕ) : ℕ :=
  (s.getD o 0).toNat ||| (s.getD (o + 1) 0).toNat <<< 8 ||| (s.getD (o + 2) 0).toNat <<< 16

/-- `load_4` (`avb_curve25519.c:87-94`). -/
def load4 (s : List UInt8) (o : ℕ) : ℕ :=
  (s.getD o 0).toNat ||| (s.getD (o + 1) 0).toNat <<< 8 ||| (s.getD (o + 2) 0).toNat <<< 16 |||
    (s.getD (o + 3) 0).toNat <<< 24

theorem toNat_lt (b : UInt8) : b.toNat < 256 := b.toNat_lt_size

@[simp] theorem leValue_nil : leValue [] = 0 := rfl

@[simp] theorem leValue_cons (b : UInt8) (t : List UInt8) :
    leValue (b :: t) = b.toNat + 256 * leValue t := rfl

theorem leValue_append (s t : List UInt8) :
    leValue (s ++ t) = leValue s + 256 ^ s.length * leValue t := by
  induction s with
  | nil => simp
  | cons b s ih => simp only [List.cons_append, leValue_cons, ih, List.length_cons, pow_succ]; ring

theorem leValue_lt (s : List UInt8) : leValue s < 256 ^ s.length := by
  induction s with
  | nil => simp
  | cons b s ih =>
    have := toNat_lt b
    simp only [leValue_cons, List.length_cons, pow_succ]
    omega

theorem leValue_drop (s : List UInt8) (o : ℕ) : leValue (s.drop o) = leValue s / 256 ^ o := by
  induction s generalizing o with
  | nil => simp
  | cons b s ih =>
    cases o with
    | zero => simp
    | succ o =>
      have := toNat_lt b
      rw [List.drop_succ_cons, ih, pow_succ', ← Nat.div_div_eq_div_mul, leValue_cons]
      congr 1
      omega

theorem leValue_take (s : List UInt8) (m : ℕ) : leValue (s.take m) = leValue s % 256 ^ m := by
  induction s generalizing m with
  | nil => simp
  | cons b s ih =>
    cases m with
    | zero => simp [Nat.mod_one]
    | succ m =>
      have := toNat_lt b
      have h1 : (b.toNat + 256 * leValue s) % 256 = b.toNat := by omega
      have h2 : (b.toNat + 256 * leValue s) / 256 = leValue s := by omega
      rw [List.take_succ_cons, leValue_cons, leValue_cons, ih, pow_succ', Nat.mod_mul, h1, h2]

@[simp] theorem length_leBytes (n v : ℕ) : (leBytes n v).length = n := by
  induction n generalizing v <;> simp [leBytes, *]

theorem leValue_leBytes (n v : ℕ) : leValue (leBytes n v) = v % 256 ^ n := by
  induction n generalizing v with
  | zero => simp [leBytes, Nat.mod_one]
  | succ n ih =>
    rw [leBytes, leValue_cons, ih, pow_succ', Nat.mod_mul,
      UInt8.toNat_ofNat_of_lt (Nat.mod_lt _ (by decide))]

/-- A byte string is the little-endian encoding of its own value. -/
theorem leBytes_leValue (s : List UInt8) : leBytes s.length (leValue s) = s := by
  induction s with
  | nil => rfl
  | cons b s ih =>
    have := toNat_lt b
    simp only [List.length_cons, leBytes, leValue_cons]
    have h1 : (b.toNat + 256 * leValue s) % 256 = b.toNat := by omega
    have h2 : (b.toNat + 256 * leValue s) / 256 = leValue s := by omega
    rw [h1, h2, ih, UInt8.toNat.inj (UInt8.toNat_ofNat_of_lt (toNat_lt b))]

/-- A byte string whose byte `k` is digit `k` of `V` in radix 256 has value `V mod 256^n`. -/
theorem leValue_eq_of_digits (b : List UInt8) (V : ℕ)
    (h : ∀ k < b.length, (b.getD k 0).toNat = V / 256 ^ k % 256) :
    leValue b = V % 256 ^ b.length := by
  induction b generalizing V with
  | nil => simp [Nat.mod_one]
  | cons x t ih =>
    have h0 := h 0 (by simp)
    simp only [List.getD_cons_zero, pow_zero, Nat.div_one] at h0
    have ht : ∀ k < t.length, (t.getD k 0).toNat = V / 256 / 256 ^ k % 256 := fun k hk => by
      simpa [pow_succ', Nat.div_div_eq_div_mul] using h (k + 1) (by simp; omega)
    rw [leValue_cons, ih _ ht, h0, List.length_cons, pow_succ', Nat.mod_mul]

/-- Overwriting byte `i` changes the value by `256^i` times the difference of the bytes. -/
theorem leValue_set (s : List UInt8) {i : ℕ} (hi : i < s.length) (x : UInt8) :
    leValue (s.set i x) + 256 ^ i * (s.getD i 0).toNat = leValue s + 256 ^ i * x.toNat := by
  induction s generalizing i with
  | nil => simp at hi
  | cons b t ih =>
    cases i with
    | zero => simp; ring
    | succ i =>
      have := ih (i := i) (by simpa using hi)
      simp only [List.set_cons_succ, leValue_cons, List.getD_cons_succ, pow_succ]
      linarith

/-- Byte 31 of a 32-byte string is its value divided by `256^31`. -/
theorem leValue_div_top {s : List UInt8} (hs : s.length = 32) :
    leValue s / 256 ^ 31 = (s.getD 31 0).toNat := by
  have hdrop : s.drop 31 = [s.getD 31 0] := by
    rw [List.drop_eq_getElem_cons (by omega), List.drop_eq_nil_of_le (by omega)]
    simp [hs]
  rw [← leValue_drop, hdrop, leValue_cons, leValue_nil, mul_zero, add_zero]

/-- Byte `m` of a byte string is digit `m` of its value in radix `256`. -/
theorem getD_toNat_eq (s : List UInt8) (m : ℕ) : (s.getD m 0).toNat = leValue s / 256 ^ m % 256 := by
  induction s generalizing m with
  | nil => simp
  | cons b t ih =>
    have := toNat_lt b
    cases m with
    | zero => simp only [List.getD_cons_zero, leValue_cons, pow_zero, Nat.div_one]; omega
    | succ m =>
      rw [List.getD_cons_succ, ih, leValue_cons, pow_succ', ← Nat.div_div_eq_div_mul]
      congr 2
      omega

/-- Bit `r < m` of `x` is bit `r` of `x mod 2^m`. -/
theorem mod_two_pow_div_mod_two (x : ℕ) {r m : ℕ} (h : r < m) :
    x % 2 ^ m / 2 ^ r % 2 = x / 2 ^ r % 2 := by
  rw [← Nat.mod_mul_right_div_self, ← Nat.mod_mul_right_div_self x, ← pow_succ,
    Nat.mod_mod_of_dvd _ (pow_dvd_pow 2 h)]

/-- Bit `k` of a byte string's value is bit `k % 8` of byte `k / 8`. -/
theorem getD_div_mod_two (s : List UInt8) (k : ℕ) :
    (s.getD (k / 8) 0).toNat / 2 ^ (k % 8) % 2 = leValue s / 2 ^ k % 2 := by
  rw [getD_toNat_eq, show (256 : ℕ) = 2 ^ 8 by norm_num,
    mod_two_pow_div_mod_two _ (Nat.mod_lt k (by norm_num)), Nat.div_div_eq_div_mul, ← pow_mul,
    ← pow_add, Nat.div_add_mod]

/-- Two byte strings of one length with one value are equal. -/
theorem eq_of_leValue_eq {s t : List UInt8} (hl : s.length = t.length)
    (hv : leValue s = leValue t) : s = t := by
  rw [← leBytes_leValue s, ← leBytes_leValue t, hl, hv]

/-- Writing `v < 256^n` as `n` bytes gives `s` exactly when `v` is the value of `s`. -/
theorem leBytes_eq_iff {s : List UInt8} {n v : ℕ} (hs : s.length = n) (hv : v < 256 ^ n) :
    leBytes n v = s ↔ v = leValue s := by
  constructor
  · rintro rfl; rw [leValue_leBytes, Nat.mod_eq_of_lt hv]
  · rintro rfl; rw [← hs, leBytes_leValue]

/-- An or of disjoint bit ranges is a sum. -/
theorem lor_shiftLeft (k : ℕ) {a b : ℕ} (ha : a < 2 ^ k) : a ||| b <<< k = a + 2 ^ k * b := by
  rw [Nat.shiftLeft_eq, Nat.or_comm, Nat.mul_comm, ← Nat.mul_add_lt_is_or ha, Nat.add_comm]

private theorem getD_drop (s : List UInt8) (o i : ℕ) : (s.drop o).getD i 0 = s.getD (o + i) 0 := by
  simp [List.getElem?_drop]

private theorem load3_drop (s : List UInt8) (o : ℕ) : load3 s o = load3 (s.drop o) 0 := by
  simp only [load3, getD_drop, Nat.add_zero]

private theorem load4_drop (s : List UInt8) (o : ℕ) : load4 s o = load4 (s.drop o) 0 := by
  simp only [load4, getD_drop, Nat.add_zero]

/-- The three bytes `s[o..o+3)` as one number. -/
theorem load3_eq (s : List UInt8) (o : ℕ) : load3 s o = leValue s / 256 ^ o % 2 ^ 24 := by
  rw [load3_drop, ← leValue_drop, show (2 : ℕ) ^ 24 = 256 ^ 3 by norm_num, ← leValue_take]
  generalize s.drop o = t
  have h0 := toNat_lt (t.getD 0 0)
  have h1 := toNat_lt (t.getD 1 0)
  rw [load3, Nat.zero_add, Nat.zero_add, lor_shiftLeft 8, lor_shiftLeft 16]
  · rcases t with _ | ⟨b0, _ | ⟨b1, _ | ⟨b2, t⟩⟩⟩ <;> simp
    ring
  all_goals omega

/-- The four bytes `s[o..o+4)` as one number. -/
theorem load4_eq (s : List UInt8) (o : ℕ) : load4 s o = leValue s / 256 ^ o % 2 ^ 32 := by
  rw [load4_drop, ← leValue_drop, show (2 : ℕ) ^ 32 = 256 ^ 4 by norm_num, ← leValue_take]
  generalize s.drop o = t
  have h0 := toNat_lt (t.getD 0 0)
  have h1 := toNat_lt (t.getD 1 0)
  have h2 := toNat_lt (t.getD 2 0)
  rw [load4, Nat.zero_add, Nat.zero_add, Nat.zero_add, lor_shiftLeft 8, lor_shiftLeft 16, lor_shiftLeft 24]
  · rcases t with _ | ⟨b0, _ | ⟨b1, _ | ⟨b2, _ | ⟨b3, t⟩⟩⟩⟩ <;> simp <;> ring
  all_goals omega

end AvbCurve25519
