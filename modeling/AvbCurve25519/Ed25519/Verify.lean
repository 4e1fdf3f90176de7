import AvbCurve25519.Ed25519
import AvbCurve25519.Ge.DoubleScalarmult
import AvbCurve25519.Ge.Scalarmult

/-!
# Signatures pass verification; the scalar multiplications agree

The file keeps two routines that only Ed25519 verification uses, `x25519_ge_frombytes_vartime`
and `ge_double_scalarmult_vartime`; the verifier that calls them is not in this copy.
Verification accepts `R ++ S` for the public key `A` and the message `M` when `A` decodes,
`S < l`, and `[k] (-A) + [S] B` with `k = x25519_sc_reduce(H(R ++ A ++ M))` encodes to `R`;
`-A` is the decoded point with `X` and `T` negated by `fe_neg`.

`avbED25519_sign_verifies` shows that every signature `avb_ED25519_sign` writes under a key pair
from `avb_ED25519_keypair_from_seed` passes those checks, computed with the file's own
routines. The assumptions are those of the signing model, a hash `H` and a comb table for `B`,
together with a table `Bi` of the odd multiples of `B` and `[l] B = 0`. `scalarmult_paths_agree`
shows that the comb, the constant-time window and the sliding windows compute the same `[a] B`.
-/

namespace AvbCurve25519

variable {B : ed25519.Point}

/-- A multiple of a point of order dividing `l` depends only on the scalar mod `l`. -/
theorem smul_mod_orderL (hB : orderL • B = 0) (n : ℕ) : (n % orderL) • B = n • B := by
  conv_rhs => rw [← Nat.mod_add_div n orderL, add_nsmul, mul_nsmul, hB, smul_zero, add_zero]

/-- The verification equation: `[k] (-[a] B) + [(r + k a) mod l] B = [r] B`. -/
theorem verify_equation (hB : orderL • B = 0) (a r k : ℕ) :
    k • -(a • B) + ((r + k * a) % orderL) • B = r • B := by
  rw [smul_mod_orderL hB, add_nsmul, mul_nsmul', smul_neg]
  abel

theorem orderL_pos : 0 < orderL := by norm_num [orderL]

theorem lt_two_pow_of_mod_orderL (n : ℕ) : n % orderL < 2 ^ 255 :=
  (Nat.mod_lt _ orderL_pos).trans (by norm_num [orderL])

/-- A scalar reduced mod `l` survives the round trip through 32 bytes. -/
theorem leValue_leBytes_mod_orderL (n : ℕ) : leValue (leBytes 32 (n % orderL)) = n % orderL := by
  rw [leValue_leBytes, Nat.mod_eq_of_lt ((lt_two_pow_of_mod_orderL n).trans (by norm_num))]

/-- The double scalar multiplication at `k = H mod l`, at `-[a] B` in the affine form the
decoder returns and at `S = (r + k a) mod l` gives `encode([r] B)`. -/
theorem tobytes_geDoubleScalarmultVartime_signature {Bi : List GePrecomp} (hB : orderL • B = 0)
    (hBi : ∀ k < 8, (Bi.getD k gePrecomp0).Rep ((2 * k + 1) • B)) (a r : ℕ) (h : Bytes 64) :
    x25519GeTobytes (geDoubleScalarmultVartime Bi (low32 (x25519ScReduce h)).toList
        ⟨-(a • B).x, (a • B).y, 1, -((a • B).x * (a • B).y)⟩
        (leBytes 32 ((r + leValue h.toList % orderL * a) % orderL))) = encodePoint (r • B) := by
  have hk := leValue_low32_x25519ScReduce h
  have hS := leValue_leBytes_mod_orderL (r + leValue h.toList % orderL * a)
  have hrep := geDoubleScalarmultVartime_rep hBi (by rw [hk]; exact lt_two_pow_of_mod_orderL _)
    (by rw [hS]; exact lt_two_pow_of_mod_orderL _) (GeP3.rep_affine (a • B)).neg
  rw [hrep.tobytes, hk, hS, verify_equation hB]

/-- For any hash `H`, any base point `B` with `[l] B = 0`, a comb table and a table `Bi` of the
odd multiples of `B`, a signature `R ++ S` that `avb_ED25519_sign` writes for `message` under
the key pair `avb_ED25519_keypair_from_seed` makes from `seed` passes verification:
`x25519_ge_frombytes_vartime` accepts the public key as a point `A`, `S < l`, and
`ge_double_scalarmult_vartime` at `x25519_sc_reduce(H(R ++ A ++ message))`, at `-A` and at `S`
encodes to `R` under `x25519_ge_tobytes`. -/
theorem avbED25519_sign_verifies (H : List UInt8 → Bytes 64) (B : ed25519.Point)
    (hB : orderL • B = 0) (k25519SmallPrecomp : List UInt8)
    (htable : SmallPrecompTable B k25519SmallPrecomp) (Bi : List GePrecomp)
    (hBi : ∀ k < 8, (Bi.getD k gePrecomp0).Rep ((2 * k + 1) • B))
    (seed : Bytes 32) (message : List UInt8) :
    let pub := (avbED25519KeypairFromSeed H k25519SmallPrecomp seed).1.toList
    let sig := (avbED25519Sign H k25519SmallPrecomp message
      (avbED25519KeypairFromSeed H k25519SmallPrecomp seed).2).1.toList
    ∃ A : GeP3, x25519GeFrombytesVartime pub = some A ∧ leValue (sig.drop 32) < orderL ∧
      x25519GeTobytes (geDoubleScalarmultVartime Bi
          (low32 (x25519ScReduce (H (sig.take 32 ++ pub ++ message)))).toList
          ⟨-A.X, A.Y, A.Z, -A.T⟩ (sig.drop 32)) = sig.take 32 := by
  intro pub sig
  have hpub : pub = ed25519PublicKey H B seed.toList := (ed25519KeypairFromSeed_eq H htable seed).1
  have hsig : sig =
      ed25519Signature H B seed.toList (ed25519PublicKey H B seed.toList) message := by
    have h :=
      (ed25519Sign_eq H htable message (ed25519KeypairFromSeed H k25519SmallPrecomp seed).2).1
    rwa [(ed25519KeypairFromSeed_eq H htable seed).2, List.take_left' seed.toList_length,
      List.drop_left' seed.toList_length] at h
  clear_value pub sig
  subst hpub hsig
  simp only [ed25519Signature, ed25519PublicKey]
  rw [List.take_left' (length_encodePoint _), List.drop_left' (length_encodePoint _),
    leValue_leBytes_mod_orderL]
  exact ⟨_, frombytes_encodePoint_eq _, Nat.mod_lt _ orderL_pos,
    tobytes_geDoubleScalarmultVartime_signature hB hBi _ _ _⟩

/-- The checks at the base point and its tables, under the hash that returns 64 zero bytes, for
the seed of 32 ones and the message `[1]`. -/
theorem avbED25519_sign_verifies_basePoint :
    orderL • basePoint = 0 ∧ SmallPrecompTable basePoint (smallPrecompTableOf basePoint) ∧
      (∀ k < 8, ((oddMultiplesTable basePoint).getD k gePrecomp0).Rep
        ((2 * k + 1) • basePoint)) ∧
      let H : List UInt8 → Bytes 64 := fun _ => Mathlib.Vector.replicate 64 0
      let t := smallPrecompTableOf basePoint
      let pub := (avbED25519KeypairFromSeed H t (Mathlib.Vector.replicate 32 1)).1.toList
      let sig := (avbED25519Sign H t [1] (avbED25519KeypairFromSeed H t
        (Mathlib.Vector.replicate 32 1)).2).1.toList
      ∃ A : GeP3, x25519GeFrombytesVartime pub = some A ∧ leValue (sig.drop 32) < orderL ∧
        x25519GeTobytes (geDoubleScalarmultVartime (oddMultiplesTable basePoint)
            (low32 (x25519ScReduce (H (sig.take 32 ++ pub ++ [1])))).toList
            ⟨-A.X, A.Y, A.Z, -A.T⟩ (sig.drop 32)) = sig.take 32 :=
  ⟨orderL_smul_basePoint, smallPrecompTable_of basePoint, oddMultiplesTable_rep basePoint,
    avbED25519_sign_verifies _ basePoint orderL_smul_basePoint _ (smallPrecompTable_of basePoint)
      _ (oddMultiplesTable_rep basePoint) _ [1]⟩

/-! ## The scalar multiplications agree

Signing computes `[r] B` and `[a] B` with the comb; verification recomputes `[S] B` with the
sliding window of `ge_double_scalarmult_vartime`. The file's four routines for `[a] B` give the
same bytes. -/

/-- The comb `x25519_ge_scalarmult_base` encodes `[a] B`, and the constant-time window
`x25519_ge_scalarmult` at a point `A` for `B`, and `ge_double_scalarmult_vartime` with `a` on
either side and the other scalar zero, encode the same point. The first two agree for every
scalar; the sliding windows need `a[31] ≤ 127`. -/
theorem scalarmult_paths_agree (B : ed25519.Point) (t : List UInt8) (ht : SmallPrecompTable B t)
    (Bi : List GePrecomp) (hBi : ∀ k < 8, (Bi.getD k gePrecomp0).Rep ((2 * k + 1) • B))
    (A : GeP3) (hA : A.Is B) (a : Bytes 32) :
    geP3Tobytes (x25519GeScalarmultBase t a.toList) = encodePoint (leValue a.toList • B) ∧
    (∃ r, x25519GeScalarmult a.toList A = some r ∧
      x25519GeTobytes r = geP3Tobytes (x25519GeScalarmultBase t a.toList)) ∧
    ((a.toList.getD 31 0).toNat ≤ 127 →
      x25519GeTobytes (geDoubleScalarmultVartime Bi a.toList A (List.replicate 32 0)) =
          geP3Tobytes (x25519GeScalarmultBase t a.toList) ∧
        x25519GeTobytes (geDoubleScalarmultVartime Bi (List.replicate 32 0) A a.toList) =
          geP3Tobytes (x25519GeScalarmultBase t a.toList)) := by
  obtain ⟨hv, rfl⟩ := hA
  have hA := GeP3.rep_toPoint hv
  have hcomb := (scalarmultSmallPrecomp_rep ht a.toList).tobytes
  rw [List.take_of_length_le (by simp)] at hcomb
  rw [x25519GeScalarmultBase, hcomb]
  obtain ⟨r, hr, hrep⟩ := x25519GeScalarmult_rep hA a
  refine ⟨rfl, ⟨r, hr, hrep.tobytes⟩, fun ha => ?_⟩
  have ha' := leValue_lt_of_top a.toList_length ha
  have h0 : leValue (List.replicate 32 (0 : UInt8)) = 0 := by decide
  have h0' : leValue (List.replicate 32 (0 : UInt8)) < 2 ^ 255 := by rw [h0]; norm_num
  rw [(geDoubleScalarmultVartime_rep hBi ha' h0' hA).tobytes,
    (geDoubleScalarmultVartime_rep hBi h0' ha' hA).tobytes, h0, zero_nsmul, add_zero, zero_add]
  exact ⟨rfl, rfl⟩

/-- The four routines at the base point, its tables and the scalar `5`. -/
theorem scalarmult_paths_agree_basePoint :
    geP3Tobytes (x25519GeScalarmultBase (smallPrecompTableOf basePoint) (leBytes 32 5)) =
        encodePoint (leValue (leBytes 32 5) • basePoint) ∧
      ∃ r, x25519GeScalarmult (leBytes 32 5)
          ⟨basePoint.x, basePoint.y, 1, basePoint.x * basePoint.y⟩ = some r ∧
        x25519GeTobytes r =
          geP3Tobytes (x25519GeScalarmultBase (smallPrecompTableOf basePoint) (leBytes 32 5)) :=
  have h := scalarmult_paths_agree basePoint _ (smallPrecompTable_of basePoint) _
    (oddMultiplesTable_rep basePoint) _ (GeP3.rep_affine basePoint).is
    ⟨leBytes 32 5, length_leBytes 32 5⟩
  ⟨h.1, h.2.1⟩

end AvbCurve25519
