import Mathlib.NumberTheory.LucasPrimality

/-!
# The prime `p = 2^255 - 19`

Field elements of Curve25519 are residues modulo `p = 2^255 - 19`. Lucas's test
(`lucas_primality`) proves a number `n` prime from a base whose powers `b^((n-1)/q)` differ
from `1` for every prime `q ∣ n - 1` while `b^(n-1) = 1`. A Pratt certificate lists such a base
and the factorization of `n - 1` for `p` and, before it, for every prime used in a
factorization. `prattCheck` is a Boolean check of a certificate with square-and-multiply
exponentiation, so that the kernel evaluates it; `prime_of_prattCheck` is its soundness.
-/

namespace AvbCurve25519

/-- `b ^ e % m` by square-and-multiply over the `k` low bits of `e`, stopping when no bits
are left. -/
def powMod (m : ℕ) : ℕ → ℕ → ℕ → ℕ
  | 0, _, _ => 1 % m
  | k + 1, b, e =>
    if e = 0 then 1 % m else
      let r := powMod m k (b * b % m) (e / 2)
      if e % 2 = 0 then r else r * b % m

theorem powMod_eq (m : ℕ) : ∀ k b e, e < 2 ^ k → powMod m k b e = b ^ e % m
  | 0, b, e, he => by
    obtain rfl : e = 0 := by simpa using he
    simp [powMod]
  | k + 1, b, e, he => by
    have ih := powMod_eq m k (b * b % m) (e / 2) (by rw [pow_succ] at he; omega)
    have hsq : (b * b % m) ^ (e / 2) % m = b ^ (2 * (e / 2)) % m := by
      rw [← Nat.pow_mod, pow_mul, sq]
    simp only [powMod, ih, hsq]
    split_ifs with h0 h2
    · simp [h0]
    · rw [← Nat.div_add_mod e 2, h2, add_zero, Nat.mul_div_cancel_left _ two_pos]
    · rw [Nat.mod_mul_mod, ← pow_succ]
      congr 2
      omega

/-- One entry of a Pratt certificate: the number `n`, Lucas's base for it, and `n - 1` as a
list of primes with their exponents. -/
structure PrattEntry where
  n : ℕ
  base : ℕ
  factors : List (ℕ × ℕ)

/-- Lucas's test for one entry, given the primes `known` certified before it. Exponents are
taken over 256 bits, which covers every `n < 2^256`. -/
def PrattEntry.valid (known : List ℕ) (c : PrattEntry) : Bool :=
  decide (2 ≤ c.n) && decide (c.n < 2 ^ 256) &&
    (c.factors.map fun f => f.1 ^ f.2).prod == c.n - 1 &&
    c.factors.all (fun f => decide (f.1 ∈ known)) &&
    powMod c.n 256 c.base (c.n - 1) == 1 &&
    c.factors.all fun f => powMod c.n 256 c.base ((c.n - 1) / f.1) != 1

/-- A certificate read in order: each entry is checked against the entries before it. -/
def prattCheck : List ℕ → List PrattEntry → Bool
  | _, [] => true
  | known, c :: cs => c.valid known && prattCheck (c.n :: known) cs

/-- In `ZMod n`, a natural power equals `1` iff it is `1` modulo `n`. -/
private theorem natCast_pow_eq_one_iff {n : ℕ} (hn : 2 ≤ n) (b e : ℕ) :
    (b : ZMod n) ^ e = 1 ↔ b ^ e % n = 1 := by
  rw [← Nat.cast_pow, ← Nat.cast_one, ZMod.natCast_eq_natCast_iff', Nat.one_mod_eq_one.mpr (by omega)]

theorem PrattEntry.prime_of_valid {known : List ℕ} {c : PrattEntry} (hk : ∀ q ∈ known, q.Prime)
    (h : c.valid known = true) : c.n.Prime := by
  simp only [PrattEntry.valid, Bool.and_eq_true, decide_eq_true_eq, beq_iff_eq, List.all_eq_true,
    bne_iff_ne, ne_eq] at h
  obtain ⟨⟨⟨⟨⟨h2, hbits⟩, hprod⟩, hknown⟩, hfull⟩, hpart⟩ := h
  have hexp : ∀ e, e ≤ c.n - 1 → e < 2 ^ 256 := fun e he => by omega
  refine lucas_primality c.n c.base ?_ fun q hq hdvd => ?_
  · rw [natCast_pow_eq_one_iff h2, ← powMod_eq _ _ _ _ (hexp _ le_rfl)]
    exact hfull
  · rw [← hprod] at hdvd
    obtain ⟨_, hmem, hqd⟩ := (Prime.dvd_prod_iff hq.prime).mp hdvd
    obtain ⟨f, hf, rfl⟩ := List.mem_map.mp hmem
    obtain rfl : q = f.1 :=
      (Nat.prime_dvd_prime_iff_eq hq (hk _ (hknown f hf))).mp (hq.dvd_of_dvd_pow hqd)
    rw [ne_eq, natCast_pow_eq_one_iff h2, ← powMod_eq _ _ _ _ (hexp _ (Nat.div_le_self _ _))]
    exact hpart f hf

theorem prime_of_prattCheck : ∀ {known : List ℕ} {cs : List PrattEntry},
    (∀ q ∈ known, q.Prime) → prattCheck known cs = true → ∀ c ∈ cs, c.n.Prime
  | _, [], _, _, _, hc => absurd hc (List.not_mem_nil _)
  | known, c :: cs, hk, h, c', hc' => by
    simp only [prattCheck, Bool.and_eq_true] at h
    have hp := PrattEntry.prime_of_valid hk h.1
    rcases List.mem_cons.mp hc' with rfl | hc'
    · exact hp
    · exact prime_of_prattCheck (fun q hq => (List.mem_cons.mp hq).elim (· ▸ hp) (hk q)) h.2 c' hc'

/-- The field prime of Curve25519. -/
def p25519 : ℕ := 2 ^ 255 - 19

/-- A Pratt certificate for `p25519`, smallest primes first. -/
def p25519Cert : List PrattEntry :=
  [
    ⟨2, 3, []⟩,
    ⟨3, 2, [(2, 1)]⟩,
    ⟨17, 3, [(2, 4)]⟩,
    ⟨7, 3, [(2, 1), (3, 1)]⟩,
    ⟨239, 7, [(2, 1), (7, 1), (17, 1)]⟩,
    ⟨479, 13, [(2, 1), (239, 1)]⟩,
    ⟨32573, 2, [(2, 2), (17, 1), (479, 1)]⟩,
    ⟨65147, 2, [(2, 1), (32573, 1)]⟩,
    ⟨5, 2, [(2, 2)]⟩,
    ⟨11, 2, [(2, 1), (5, 1)]⟩,
    ⟨353, 3, [(2, 5), (11, 1)]⟩,
    ⟨29, 2, [(2, 2), (7, 1)]⟩,
    ⟨59, 2, [(2, 1), (29, 1)]⟩,
    ⟨487, 3, [(2, 1), (3, 5)]⟩,
    ⟨57467, 2, [(2, 1), (59, 1), (487, 1)]⟩,
    ⟨13, 2, [(2, 2), (3, 1)]⟩,
    ⟨131, 2, [(2, 1), (5, 1), (13, 1)]⟩,
    ⟨132049, 26, [(2, 4), (3, 2), (7, 1), (131, 1)]⟩,
    ⟨43, 3, [(2, 1), (3, 1), (7, 1)]⟩,
    ⟨23, 5, [(2, 1), (11, 1)]⟩,
    ⟨3727, 3, [(2, 1), (3, 4), (23, 1)]⟩,
    ⟨1923133, 2, [(2, 2), (3, 1), (43, 1), (3727, 1)]⟩,
    ⟨31, 3, [(2, 1), (3, 1), (5, 1)]⟩,
    ⟨53, 2, [(2, 2), (13, 1)]⟩,
    ⟨107, 2, [(2, 1), (53, 1)]⟩,
    ⟨37, 2, [(2, 2), (3, 2)]⟩,
    ⟨223, 3, [(2, 1), (3, 1), (37, 1)]⟩,
    ⟨173, 2, [(2, 2), (43, 1)]⟩,
    ⟨4153, 5, [(2, 3), (3, 1), (173, 1)]⟩,
    ⟨41, 6, [(2, 3), (5, 1)]⟩,
    ⟨1723, 3, [(2, 1), (3, 1), (7, 1), (41, 1)]⟩,
    ⟨430751, 17, [(2, 1), (5, 3), (1723, 1)]⟩,
    ⟨31757755568855353, 10, [(2, 3), (3, 1), (31, 1), (107, 1), (223, 1), (4153, 1), (430751, 1)]⟩,
    ⟨19, 2, [(2, 1), (3, 2)]⟩,
    ⟨83, 2, [(2, 1), (41, 1)]⟩,
    ⟨9463, 3, [(2, 1), (3, 1), (19, 1), (83, 1)]⟩,
    ⟨37853, 2, [(2, 2), (9463, 1)]⟩,
    ⟨75707, 2, [(2, 1), (37853, 1)]⟩,
    ⟨2437, 2, [(2, 2), (3, 1), (7, 1), (29, 1)]⟩,
    ⟨97, 5, [(2, 5), (3, 1)]⟩,
    ⟨419, 2, [(2, 1), (11, 1), (19, 1)]⟩,
    ⟨569003, 2, [(2, 1), (7, 1), (97, 1), (419, 1)]⟩,
    ⟨2773320623, 5, [(2, 1), (2437, 1), (569003, 1)]⟩,
    ⟨72106336199, 7, [(2, 1), (13, 1), (2773320623, 1)]⟩,
    ⟨47, 5, [(2, 1), (23, 1)]⟩,
    ⟨127, 3, [(2, 1), (3, 2), (7, 1)]⟩,
    ⟨103, 5, [(2, 1), (3, 1), (17, 1)]⟩,
    ⟨991, 6, [(2, 1), (3, 2), (5, 1), (11, 1)]⟩,
    ⟨8574133, 2, [(2, 2), (3, 1), (7, 1), (103, 1), (991, 1)]⟩,
    ⟨1919519569386763, 2, [(2, 1), (3, 1), (7, 1), (19, 1), (47, 2), (127, 1), (8574133, 1)]⟩,
    ⟨75445702479781427272750846543864801, 7, [(2, 5), (3, 2), (5, 2), (75707, 1), (72106336199, 1), (1919519569386763, 1)]⟩,
    ⟨74058212732561358302231226437062788676166966415465897661863160754340907, 2, [(2, 1), (3, 1), (353, 1), (57467, 1), (132049, 1), (1923133, 1), (31757755568855353, 1), (75445702479781427272750846543864801, 1)]⟩,
    ⟨57896044618658097711785492504343953926634992332820282019728792003956564819949, 2, [(2, 2), (3, 1), (65147, 1), (74058212732561358302231226437062788676166966415465897661863160754340907, 1)]⟩
  ]

set_option maxRecDepth 4000 in
theorem p25519Cert_check : prattCheck [] p25519Cert = true := by decide

theorem p25519_prime : p25519.Prime :=
  prime_of_prattCheck (by simp) p25519Cert_check _
    (List.getLast_mem (by simp [p25519Cert] : p25519Cert ≠ []))

instance : Fact p25519.Prime := ⟨p25519_prime⟩

end AvbCurve25519
