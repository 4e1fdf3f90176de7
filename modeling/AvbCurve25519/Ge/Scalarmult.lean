import AvbCurve25519.Ge.Select

/-!
# Variable-base scalar multiplication: `x25519_ge_scalarmult`

`x25519_ge_scalarmult` (`avb_curve25519.c:751-803`) computes `[n] A` for a 32-byte scalar
with a table of the sixteen multiples `[k] A` in cached form. The table loop builds `Ai[2 k]`
by doubling `Ai_p2[k]` and `Ai[2 k + 1]` by adding `A`, and keeps the projective forms
`Ai_p2[1..7]` that later passes double. The main loop takes the scalar four bits at a time
from the top, multiplies the accumulator by `16` with four doublings and adds the entry the
nibble selects.

The arrays are partial maps here: an entry the code has not written is `none`, and reading
one makes the computation `none`. `scalarmultTables_filled` shows that the table loop reads
only entries it has written and fills `Ai[k]` with `[k] A`; `scalarmultRounds_rep` that after
`m` rounds the accumulator holds the top `m` nibbles of the scalar times `A`.
-/

namespace AvbCurve25519

/-- `Ai` and `Ai_p2`, with `none` at an entry not yet written. -/
abbrev ScalarmultTables := (ℕ → Option GeCached) × (ℕ → Option GeP2)

/-- `Ai[0]`, `Ai[1]` and `Ai_p2[1]` (`avb_curve25519.c:758-760`). -/
def scalarmultTablesInit (A : GeP3) : ScalarmultTables :=
  (Function.update (Function.update (fun _ => none) 0 (some geCached0)) 1
      (some (x25519GeP3ToCached A)),
    Function.update (fun _ => none) 1 (some (geP3ToP2 A)))

/-- One pass of the table loop, at even `i` (`avb_curve25519.c:764-773`). -/
def scalarmultTablesStep (A : GeP3) (tables : ScalarmultTables) (i : ℕ) :
    Option ScalarmultTables := do
  let p ← tables.2 (i / 2)
  let t := geP2Dbl p
  let Ai := Function.update tables.1 i (some (geP1p1ToCached t))
  let AiP2 := if i < 8 then Function.update tables.2 i (some (x25519GeP1p1ToP2 t)) else tables.2
  let c ← Ai i
  let t := x25519GeAdd A c
  let Ai := Function.update Ai (i + 1) (some (geP1p1ToCached t))
  let AiP2 := if i < 7 then Function.update AiP2 (i + 1) (some (x25519GeP1p1ToP2 t)) else AiP2
  pure (Ai, AiP2)

/-- The table loop `for (i = 2; i < 16; i += 2)` (`avb_curve25519.c:758-774`). -/
def scalarmultTables (A : GeP3) : Option ScalarmultTables :=
  (List.range' 2 7 2).foldlM (scalarmultTablesStep A) (scalarmultTablesInit A)

/-- `index` of round `i` (`avb_curve25519.c:789-791`). -/
def scalarmultIndex (scalar : List UInt8) (i : ℕ) : ℕ :=
  let index := (scalar.getD (31 - i / 8) 0).toNat
  let index := index >>> (4 - (i &&& 4))
  index &&& 0xf

/-- Round `i` of the main loop (`avb_curve25519.c:780-801`). -/
def scalarmultRound (scalar : List UInt8) (Ai : ℕ → Option GeCached) (r : GeP2) (i : ℕ) :
    Option GeP2 := do
  let t := geP2Dbl r
  let r := x25519GeP1p1ToP2 t
  let t := geP2Dbl r
  let r := x25519GeP1p1ToP2 t
  let t := geP2Dbl r
  let r := x25519GeP1p1ToP2 t
  let t := geP2Dbl r
  let u := x25519GeP1p1ToP3 t
  let index := scalarmultIndex scalar i
  let selected ← (List.range 16).foldlM
    (fun selected j => (Ai j).map fun a => cmovCached selected a (1 &&& constantTimeEqW index j))
    geCached0
  let t := x25519GeAdd u selected
  pure (x25519GeP1p1ToP2 t)

/-- `x25519_ge_scalarmult` (`avb_curve25519.c:753-803`): `none` where the code would read an
entry of `Ai` or `Ai_p2` it has not written. -/
def x25519GeScalarmult (scalar : List UInt8) (A : GeP3) : Option GeP2 := do
  let tables ← scalarmultTables A
  (List.range' 0 64 4).foldlM (scalarmultRound scalar tables.1) geP20

/-! ## The table loop -/

variable {P : ed25519.Point}

/-- The entries the table loop has written before pass `i`: `Ai[k]` for `k < i` and
`Ai_p2[k]` for `1 ≤ k < min i 8`, each a representation of `[k] P`. -/
structure TablesFilled (P : ed25519.Point) (tables : ScalarmultTables) (i : ℕ) : Prop where
  cached : ∀ k < i, ∃ c, tables.1 k = some c ∧ c.Rep (k • P)
  p2 : ∀ k, 1 ≤ k → k < min i 8 → ∃ p, tables.2 k = some p ∧ p.Rep (k • P)

theorem tablesFilled_init {A : GeP3} (hA : A.Rep P) : TablesFilled P (scalarmultTablesInit A) 2 where
  cached k hk := by
    interval_cases k
    · exact ⟨_, rfl, by rw [zero_nsmul]; exact GeCached.rep_geCached0⟩
    · exact ⟨_, rfl, by rw [one_nsmul]; exact hA.toCached⟩
  p2 k hk1 hk := by
    obtain rfl : k = 1 := by omega
    exact ⟨_, rfl, by rw [one_nsmul]; exact hA.toP2⟩

/-- A pass at even `i` reads `Ai_p2[i / 2]`, which is written, and fills `Ai[i]`, `Ai[i + 1]`
and, below `8`, `Ai_p2[i]` and `Ai_p2[i + 1]`. -/
theorem scalarmultTablesStep_filled {A : GeP3} (hA : A.Rep P) {tables : ScalarmultTables}
    {i : ℕ} (hf : TablesFilled P tables i) (hi2 : 2 ≤ i) (hi : i < 16) (heven : i % 2 = 0) :
    ∃ tables', scalarmultTablesStep A tables i = some tables' ∧
      TablesFilled P tables' (i + 2) := by
  obtain ⟨p, hp, hpr⟩ := hf.p2 (i / 2) (by omega) (by omega)
  have ht : (geP2Dbl p).Rep (i • P) := by
    have h := rep_geP2Dbl hpr
    rwa [← add_nsmul, ← two_mul, Nat.mul_div_cancel' (Nat.dvd_of_mod_eq_zero heven)] at h
  have ht' : (x25519GeAdd A (geP1p1ToCached (geP2Dbl p))).Rep ((i + 1) • P) := by
    have h := rep_x25519GeAdd hA ht.toP3.toCached
    rwa [add_comm, ← succ_nsmul] at h
  simp only [scalarmultTablesStep, hp, Function.update_same]
  refine ⟨_, rfl, fun k hk => ?_, fun k hk1 hk => ?_⟩
  · simp only [Function.update_apply]
    split_ifs with h1 h2
    · subst h1; exact ⟨_, rfl, ht'.toP3.toCached⟩
    · subst h2; exact ⟨_, rfl, ht.toP3.toCached⟩
    · exact hf.cached k (by omega)
  · split_ifs <;> simp only [Function.update_apply] <;> (try split_ifs) <;> first
      | (subst k; exact ⟨_, rfl, ht'.toP2⟩)
      | (subst k; exact ⟨_, rfl, ht.toP2⟩)
      | exact hf.p2 k hk1 (by omega)

/-- The passes at `i, i + 2, ...` carry the filled entries up to `i + 2 n`. -/
theorem scalarmultTables_foldlM {A : GeP3} (hA : A.Rep P) :
    ∀ n i (tables : ScalarmultTables), TablesFilled P tables i → 2 ≤ i → i + 2 * n ≤ 16 →
      i % 2 = 0 → ∃ tables', (List.range' i n 2).foldlM (scalarmultTablesStep A) tables =
        some tables' ∧ TablesFilled P tables' (i + 2 * n)
  | 0, i, tables, hf, _, _, _ => ⟨tables, rfl, hf⟩
  | n + 1, i, tables, hf, hi2, hn, heven => by
    obtain ⟨t1, h1, hf1⟩ := scalarmultTablesStep_filled hA hf hi2 (by omega) heven
    obtain ⟨t', h', hf'⟩ := scalarmultTables_foldlM hA n (i + 2) t1 hf1 (by omega) (by omega)
      (by omega)
    refine ⟨t', ?_, by rwa [show i + 2 * (n + 1) = i + 2 + 2 * n by ring]⟩
    rw [List.range'_succ, List.foldlM_cons, h1]
    exact h'

/-- The table loop reads only entries it has written and leaves `[k] A` in every `Ai[k]`. -/
theorem scalarmultTables_filled {A : GeP3} (hA : A.Rep P) :
    ∃ tables, scalarmultTables A = some tables ∧ TablesFilled P tables 16 :=
  scalarmultTables_foldlM hA 7 2 _ (tablesFilled_init hA) le_rfl (by norm_num) rfl

/-! ## The main loop -/

/-- A doubling through `ge_p2_dbl` and `x25519_ge_p1p1_to_p2`. -/
theorem GeP2.Rep.dbl {p : GeP2} {c : ℕ} (h : p.Rep (c • P)) :
    (x25519GeP1p1ToP2 (geP2Dbl p)).Rep ((2 * c) • P) := by
  have h := (rep_geP2Dbl h).toP2
  rwa [← add_nsmul, ← two_mul] at h

/-- A byte's bits `s ..< s + 4`, `s ≤ 4`, are those of any number it is the low byte of. -/
theorem mod_256_div_mod_16 (x : ℕ) {s : ℕ} (hs : s ≤ 4) : x % 256 / 2 ^ s % 16 = x / 2 ^ s % 16 := by
  have hdvd : 2 ^ s * 16 ∣ 256 := Nat.mul_dvd_mul_right (pow_dvd_pow 2 hs) 16
  rw [← Nat.mod_mul_right_div_self, ← Nat.mod_mul_right_div_self x, Nat.mod_mod_of_dvd _ hdvd]

/-- Round `4 m` reads nibble `63 - m` of the scalar: the high nibble of byte `31 - m / 2` for
even `m`, the low one for odd `m`. -/
theorem scalarmultIndex_eq (scalar : List UInt8) {m : ℕ} (hm : m < 64) :
    scalarmultIndex scalar (4 * m) = leValue scalar / 16 ^ (63 - m) % 16 := by
  have hs : ∀ m < 64, 4 - (4 * m &&& 4) ≤ 4 ∧
      8 * (31 - 4 * m / 8) + (4 - (4 * m &&& 4)) = 4 * (63 - m) := by decide
  obtain ⟨hs4, hsum⟩ := hs m hm
  simp only [scalarmultIndex]
  rw [getD_toNat_eq, Nat.shiftRight_eq_div_pow, show (0xf : ℕ) = 2 ^ 4 - 1 from rfl,
    Nat.and_pow_two_sub_one_eq_mod, mod_256_div_mod_16 _ hs4, Nat.div_div_eq_div_mul,
    show (256 : ℕ) = 2 ^ 8 by norm_num, show (16 : ℕ) = 2 ^ 4 by norm_num, ← pow_mul, ← pow_mul,
    ← pow_add, hsum]

/-- A round multiplies the accumulator by `16` and adds the nibble's entry of the table. -/
theorem scalarmultRound_rep {scalar : List UInt8} {tables : ScalarmultTables}
    (hf : TablesFilled P tables 16) {r : GeP2} {c : ℕ} (hr : r.Rep (c • P)) {m : ℕ}
    (hm : m < 64) :
    ∃ r', scalarmultRound scalar tables.1 r (4 * m) = some r' ∧
      r'.Rep ((16 * c + leValue scalar / 16 ^ (63 - m) % 16) • P) := by
  have hidx := scalarmultIndex_eq scalar hm
  have hlt : scalarmultIndex scalar (4 * m) < 16 := by rw [hidx]; exact Nat.mod_lt _ (by norm_num)
  have hread : ∀ j ∈ List.range 16, tables.1 j = some ((tables.1 j).getD geCached0) := by
    intro j hj
    obtain ⟨c, hc, -⟩ := hf.cached j (List.mem_range.mp hj)
    rw [hc]; rfl
  obtain ⟨e, he, her⟩ := hf.cached _ hlt
  have hsel := foldl_select cmovCached cmovCached_eq (fun j => (tables.1 j).getD geCached0)
    (scalarmultIndex scalar (4 * m)) (List.range 16) (List.nodup_range 16) geCached0
  rw [if_pos (List.mem_range.mpr hlt), he] at hsel
  have hu := (rep_geP2Dbl hr.dbl.dbl.dbl).toP3
  have hpt : (2 * (2 * (2 * c))) • P + (2 * (2 * (2 * c))) • P +
      scalarmultIndex scalar (4 * m) • P = (16 * c + leValue scalar / 16 ^ (63 - m) % 16) • P := by
    rw [← add_nsmul, ← add_nsmul, hidx]
    ring_nf
  refine ⟨_, ?_, hpt ▸ (rep_x25519GeAdd hu her).toP2⟩
  simp only [scalarmultRound]
  rw [foldlM_map_eq_some _ (fun j => (tables.1 j).getD geCached0) _ _ hread, hsel]
  rfl

/-- From the top `m` nibbles of `N` times `P`, the rounds `4 m, 4 m + 4, ...` reach the top
`m + n` nibbles. -/
theorem scalarmultRounds_rep {scalar : List UInt8} {tables : ScalarmultTables}
    (hf : TablesFilled P tables 16) :
    ∀ n m (r : GeP2), m + n ≤ 64 → r.Rep ((leValue scalar / 16 ^ (64 - m)) • P) →
      ∃ r', (List.range' (4 * m) n 4).foldlM (scalarmultRound scalar tables.1) r = some r' ∧
        r'.Rep ((leValue scalar / 16 ^ (64 - m - n)) • P)
  | 0, m, r, _, hr => ⟨r, rfl, hr⟩
  | n + 1, m, r, hmn, hr => by
    obtain ⟨r1, h1, hr1⟩ := scalarmultRound_rep hf hr (show m < 64 by omega)
    have hnext : 16 * (leValue scalar / 16 ^ (64 - m)) + leValue scalar / 16 ^ (63 - m) % 16 =
        leValue scalar / 16 ^ (64 - (m + 1)) := by
      rw [show 64 - m = 63 - m + 1 by omega, pow_succ, ← Nat.div_div_eq_div_mul,
        show 64 - (m + 1) = 63 - m by omega, Nat.div_add_mod]
    rw [hnext] at hr1
    obtain ⟨r', h', hr'⟩ := scalarmultRounds_rep hf n (m + 1) r1 (by omega) hr1
    refine ⟨r', ?_, by rwa [show 64 - (m + 1) - n = 64 - m - (n + 1) by omega] at hr'⟩
    rw [List.range'_succ, List.foldlM_cons, h1, show 4 * m + 4 = 4 * (m + 1) by ring]
    exact h'

/-- For a point `A` of `P`, `x25519_ge_scalarmult` returns a projective point for `[n] P`. -/
theorem x25519GeScalarmult_rep {A : GeP3} (hA : A.Rep P) (scalar : Bytes 32) :
    ∃ r, x25519GeScalarmult scalar.toList A = some r ∧ r.Rep (leValue scalar.toList • P) := by
  obtain ⟨tables, ht, hf⟩ := scalarmultTables_filled hA
  have hlt : leValue scalar.toList < 16 ^ 64 := by
    have := leValue_lt scalar.toList
    rwa [scalar.toList_length, show (256 : ℕ) ^ 32 = 16 ^ 64 by norm_num] at this
  obtain ⟨r, hr, hrep⟩ := scalarmultRounds_rep hf 64 0 geP20 le_rfl
    (by rw [Nat.div_eq_of_lt hlt, zero_nsmul]; exact GeP2.rep_geP20)
  refine ⟨r, ?_, by simpa using hrep⟩
  simp only [x25519GeScalarmult, ht]
  exact hr

/-- `x25519_ge_scalarmult` fills `Ai[k]` with `[k] A` for every `k < 16`, reading only entries
of `Ai_p2` it has written, and returns a projective point for `[n] A`, `n` the little-endian
value of the scalar. -/
theorem x25519GeScalarmult_spec (scalar : Bytes 32) (A : GeP3) (hA : A.Valid) :
    (∃ tables, scalarmultTables A = some tables ∧
      ∀ k < 16, ∃ c, tables.1 k = some c ∧ c.Rep (k • A.toPoint hA)) ∧
    ∃ r, x25519GeScalarmult scalar.toList A = some r ∧
      r.Rep (leValue scalar.toList • A.toPoint hA) := by
  obtain ⟨tables, ht, hf⟩ := scalarmultTables_filled (GeP3.rep_toPoint hA)
  exact ⟨⟨tables, ht, hf.cached⟩, x25519GeScalarmult_rep (GeP3.rep_toPoint hA) scalar⟩

/-- `x25519_ge_scalarmult` of the scalar `5` at the base point in affine form. -/
theorem x25519GeScalarmult_basePoint :
    (∃ tables, scalarmultTables ⟨basePoint.x, basePoint.y, 1, basePoint.x * basePoint.y⟩ =
        some tables ∧ ∀ k < 16, ∃ c, tables.1 k = some c ∧ c.Rep (k • basePoint)) ∧
    ∃ r, x25519GeScalarmult (leBytes 32 5) ⟨basePoint.x, basePoint.y, 1,
      basePoint.x * basePoint.y⟩ = some r ∧ r.Rep (leValue (leBytes 32 5) • basePoint) := by
  have h := x25519GeScalarmult_spec ⟨leBytes 32 5, length_leBytes 32 5⟩ _
    (GeP3.rep_affine basePoint).valid
  rwa [(GeP3.rep_affine basePoint).toPoint_eq] at h

end AvbCurve25519
