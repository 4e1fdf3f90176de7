import AvbCurve25519.Ge.Comb
import AvbCurve25519.Ge.FromBytes
import AvbCurve25519.Scalar.MulAdd

/-!
# Ed25519 key generation and signing

`ED25519_sign` and `ED25519_keypair_from_seed` (`avb_curve25519.c:1754-1812`) and the
`avb_ED25519_` wrappers that call them (`avb_curve25519.c:1904-1923`). SHA-512 is not among
the sources: it is a parameter `H` from byte strings to 64 bytes, and a run of
`avb_sha512_init`, `avb_sha512_update` and `avb_sha512_final` hashes the concatenation of what
it is fed. The comb table `k25519SmallPrecomp` is a parameter, as in `Ge.Comb`.

Both functions clamp `SHA-512(seed)[0..32]` to the secret scalar `a`, the key path with mask
`127` and the signing path with mask `63`; `clampBytes_mask` shows that the two masks give the
same bytes. For any `H` and any table that holds the comb multiples of `B`, the key pair is
`encode([a] B)` and `seed ++ encode([a] B)`, and the signature is `encode([r] B) ++ LE32(S)`
with `r = H(az[32..64] ++ M) mod l`, `k = H(encode([r] B) ++ A ++ M) mod l` and
`S = (r + k a) mod l`.
-/

namespace AvbCurve25519

/-! ## The code -/

/-- `az[0] &= 248; az[31] &= mask; az[31] |= 64`: the clamping of `ED25519_sign`
(`avb_curve25519.c:1766-1768`, `mask = 63`) and of `ED25519_keypair_from_seed`
(`avb_curve25519.c:1802-1804`, `mask = 127`). -/
def clampBytes (mask : UInt8) (az : Bytes 64) : Bytes 64 :=
  let az := az.set 0 (az.get 0 &&& 248)
  let az := az.set 31 (az.get 31 &&& mask)
  az.set 31 (az.get 31 ||| 64)

/-- The 32 bytes that `x25519_ge_scalarmult_base` and `sc_muladd` read through a pointer to a
64-byte buffer. -/
def low32 (s : Bytes 64) : Bytes 32 := ⟨s.toList.take 32, by simp⟩

/-- `ED25519_keypair_from_seed` (`avb_curve25519.c:1796-1812`): `out_public_key` and
`out_private_key`. -/
def ed25519KeypairFromSeed (H : List UInt8 → Bytes 64) (k25519SmallPrecomp : List UInt8)
    (seed : Bytes 32) : Bytes 32 × Bytes 64 :=
  let az := clampBytes 127 (H seed.toList)
  let A := x25519GeScalarmultBase k25519SmallPrecomp az.toList
  let outPublicKey : Bytes 32 := ⟨geP3Tobytes A, length_geP3Tobytes A⟩
  (outPublicKey, seed.append outPublicKey)

/-- `ED25519_sign` (`avb_curve25519.c:1754-1794`): `out_sig` and the return value. The first
half of `out_sig` is written before the second hash reads it. -/
def ed25519Sign (H : List UInt8 → Bytes 64) (k25519SmallPrecomp : List UInt8)
    (message : List UInt8) (privateKey : Bytes 64) : Bytes 64 × ℤ :=
  let az := clampBytes 63 (H (privateKey.toList.take 32))
  let nonce := x25519ScReduce (H ((az.toList.drop 32) ++ message))
  let R := x25519GeScalarmultBase k25519SmallPrecomp nonce.toList
  let outSig : Bytes 32 := ⟨geP3Tobytes R, length_geP3Tobytes R⟩
  let hram := x25519ScReduce (H (outSig.toList ++ privateKey.toList.drop 32 ++ message))
  (outSig.append (scMuladd (low32 hram) (low32 az) (low32 nonce)), 1)

/-- `avb_ED25519_sign` (`avb_curve25519.c:1907-1912`). -/
def avbED25519Sign (H : List UInt8 → Bytes 64) (k25519SmallPrecomp : List UInt8)
    (message : List UInt8) (privateKey : Bytes 64) : Bytes 64 × ℤ :=
  ed25519Sign H k25519SmallPrecomp message privateKey

/-- `avb_ED25519_keypair_from_seed` (`avb_curve25519.c:1919-1923`). -/
def avbED25519KeypairFromSeed (H : List UInt8 → Bytes 64) (k25519SmallPrecomp : List UInt8)
    (seed : Bytes 32) : Bytes 32 × Bytes 64 :=
  ed25519KeypairFromSeed H k25519SmallPrecomp seed

/-! ## The scheme -/

/-- The secret scalar: `h[0..32]` read little-endian with bits 0-2 and 255 cleared and bit
254 set. -/
def clampScalar (h : List UInt8) : ℕ := leValue (h.take 32) % 2 ^ 254 / 8 * 8 + 2 ^ 254

/-- The Ed25519 public key of `seed`: `encode([a] B)` for the clamped `a` of `H(seed)`. -/
def ed25519PublicKey (H : List UInt8 → Bytes 64) (B : ed25519.Point) (seed : List UInt8) :
    List UInt8 :=
  encodePoint (clampScalar (H seed).toList • B)

/-- The Ed25519 signature of `M` under the secret `seed` and the public key `pub`:
`encode([r] B) ++ LE32((r + k a) mod l)`. -/
def ed25519Signature (H : List UInt8 → Bytes 64) (B : ed25519.Point) (seed pub M : List UInt8) :
    List UInt8 :=
  let h := (H seed).toList
  let a := clampScalar h
  let r := leValue (H (h.drop 32 ++ M)).toList % orderL
  let R := encodePoint (r • B)
  let k := leValue (H (R ++ pub ++ M)).toList % orderL
  R ++ leBytes 32 ((r + k * a) % orderL)

/-! ## Clamping -/

theorem get_eq_getD {n : ℕ} (v : Bytes n) (i : Fin n) : v.get i = v.toList.getD i 0 := by
  simp [Mathlib.Vector.get_eq_get, List.getD_eq_getElem?_getD]

theorem clampBytes_toList (mask : UInt8) (az : Bytes 64) :
    (clampBytes mask az).toList =
      (az.toList.set 0 (az.toList.getD 0 0 &&& 248)).set 31 (az.toList.getD 31 0 &&& mask ||| 64) := by
  simp only [clampBytes, Mathlib.Vector.toList_set, get_eq_getD]
  simp [List.getD_eq_getElem?_getD, List.getElem?_set, Fin.coe_ofNat_eq_mod]

/-- The clamped bytes as numbers. -/
theorem clamp_toNat (x : UInt8) :
    (x &&& 248).toNat = x.toNat / 8 * 8 ∧ (x &&& 63 ||| 64).toNat = x.toNat % 64 + 64 ∧
      (x &&& 127 ||| 64).toNat = x.toNat % 64 + 64 := by
  have key : ∀ n < 256, n &&& 248 = n / 8 * 8 ∧ n &&& 63 ||| 64 = n % 64 + 64 ∧
      n &&& 127 ||| 64 = n % 64 + 64 := by
    set_option maxRecDepth 4000 in decide
  exact key _ x.val.isLt

/-- Masks `63` and `127` clamp to the same bytes: bit 6 of byte 31 is set either way. -/
theorem clampBytes_mask (az : Bytes 64) : clampBytes 63 az = clampBytes 127 az := by
  have h := clamp_toNat (az.toList.getD 31 0)
  have hbyte : az.toList.getD 31 0 &&& 63 ||| 64 = az.toList.getD 31 0 &&& 127 ||| 64 :=
    UInt8.eq_of_val_eq (Fin.eq_of_val_eq (h.2.1.trans h.2.2.symm))
  exact Mathlib.Vector.toList_injective (by rw [clampBytes_toList, clampBytes_toList, hbyte])

theorem clampBytes_drop (az : Bytes 64) : (clampBytes 127 az).toList.drop 32 = az.toList.drop 32 := by
  rw [clampBytes_toList, List.drop_set_of_lt _ _ (by norm_num), List.drop_set_of_lt _ _ (by norm_num)]

/-- A 32-byte string with `s[0] &= 248` and `s[31] = s[31] & 127 | 64` is the clamped scalar. -/
theorem leValue_clamp {t : List UInt8} (hlen : t.length = 32) :
    leValue ((t.set 0 (t.getD 0 0 &&& 248)).set 31 (t.getD 31 0 &&& 127 ||| 64)) = clampScalar t := by
  have hn := leValue_lt t
  have h0 : (t.getD 0 0 &&& 248).toNat = leValue t % 256 / 8 * 8 := by
    rw [(clamp_toNat _).1, getD_toNat_eq, pow_zero, Nat.div_one]
  have h31 : (t.getD 31 0 &&& 127 ||| 64).toNat = leValue t / 256 ^ 31 % 64 + 64 := by
    rw [(clamp_toNat _).2.2, leValue_div_top hlen]
  have hset0 := leValue_set t (show 0 < t.length by omega) (t.getD 0 0 &&& 248)
  have hset31 := leValue_set (t.set 0 (t.getD 0 0 &&& 248))
    (show 31 < (t.set 0 (t.getD 0 0 &&& 248)).length by simp [hlen]) (t.getD 31 0 &&& 127 ||| 64)
  have hget : (t.set 0 (t.getD 0 0 &&& 248)).getD 31 0 = t.getD 31 0 := by
    simp [List.getD_eq_getElem?_getD, List.getElem?_set]
  rw [hget, h31, ← leValue_div_top hlen] at hset31
  rw [h0, getD_toNat_eq, pow_zero, Nat.div_one, one_mul, one_mul] at hset0
  rw [clampScalar, List.take_of_length_le (by omega)]
  rw [hlen] at hn
  norm_num at hn hset0 hset31 ⊢
  omega

/-- The low half of the clamped bytes is the clamped scalar. -/
theorem leValue_clampBytes (az : Bytes 64) :
    leValue (low32 (clampBytes 127 az)).toList = clampScalar az.toList := by
  set t := az.toList.take 32 with ht
  have hz : (low32 (clampBytes 127 az)).toList = (t.set 0 (t.getD 0 0 &&& 248)).set 31
      (t.getD 31 0 &&& 127 ||| 64) := by
    simp only [low32, clampBytes_toList, List.set_take, ht]
    simp [List.getD_eq_getElem?_getD, List.getElem?_take]
  rw [hz, leValue_clamp (by simp [ht]), clampScalar, clampScalar, ht, List.take_take, min_self]

/-! ## Scalars -/

/-- The low half of `x25519_sc_reduce`'s output is `S mod l` as a number. -/
theorem leValue_low32_x25519ScReduce (s : Bytes 64) :
    leValue (low32 (x25519ScReduce s)).toList = leValue s.toList % orderL := by
  have hl : leValue s.toList % orderL < 256 ^ 32 :=
    (Nat.mod_lt _ (by norm_num [orderL])).trans (by norm_num [orderL])
  show leValue ((scPack (runLimbs scReduceOps (scReduceLoad s.toList)) ++ _).take 32) = _
  rw [scPack_scReduceOps s.toList_length, List.take_left' (length_leBytes _ _), leValue_leBytes,
    Nat.mod_eq_of_lt hl]

section Signing

variable (H : List UInt8 → Bytes 64) {B : ed25519.Point} {k25519SmallPrecomp : List UInt8}
  (htable : SmallPrecompTable B k25519SmallPrecomp)
include htable

/-- `x25519_ge_scalarmult_base` on a 64-byte buffer reads its low half. -/
theorem geP3Tobytes_scalarmultBase (s : Bytes 64) :
    geP3Tobytes (x25519GeScalarmultBase k25519SmallPrecomp s.toList) =
      encodePoint (leValue (low32 s).toList • B) :=
  (scalarmultSmallPrecomp_rep htable s.toList).tobytes

/-- `ED25519_keypair_from_seed` writes the public key of `seed` and `seed` followed by it. -/
theorem ed25519KeypairFromSeed_eq (seed : Bytes 32) :
    (ed25519KeypairFromSeed H k25519SmallPrecomp seed).1.toList = ed25519PublicKey H B seed.toList ∧
      (ed25519KeypairFromSeed H k25519SmallPrecomp seed).2.toList =
        seed.toList ++ ed25519PublicKey H B seed.toList := by
  have hpub : geP3Tobytes (x25519GeScalarmultBase k25519SmallPrecomp
      (clampBytes 127 (H seed.toList)).toList) = ed25519PublicKey H B seed.toList := by
    rw [geP3Tobytes_scalarmultBase htable, leValue_clampBytes, ed25519PublicKey]
  exact ⟨hpub, congrArg (seed.toList ++ ·) hpub⟩

/-- `ED25519_sign` with any 64-byte private key writes the signature under its first half as
the secret and its second half as the public key, and returns `1`. -/
theorem ed25519Sign_eq (message : List UInt8) (privateKey : Bytes 64) :
    (ed25519Sign H k25519SmallPrecomp message privateKey).1.toList =
        ed25519Signature H B (privateKey.toList.take 32) (privateKey.toList.drop 32) message ∧
      (ed25519Sign H k25519SmallPrecomp message privateKey).2 = 1 := by
  refine ⟨?_, rfl⟩
  simp only [ed25519Sign, ed25519Signature, Mathlib.Vector.toList_append, clampBytes_mask,
    clampBytes_drop, geP3Tobytes_scalarmultBase htable, Mathlib.Vector.toList_mk, scMuladd_toList,
    leValue_low32_x25519ScReduce, leValue_clampBytes]
  rw [Nat.add_comm (_ * _)]

end Signing

/-- For any hash `H` and any table that holds the comb multiples of `B`,
`avb_ED25519_keypair_from_seed` writes the Ed25519 key pair of `seed`; `avb_ED25519_sign` under
its private key writes the Ed25519 signature of `message` and returns `1`; and the clampings
with masks `63` and `127` give the same bytes, whose low half is the clamped scalar. -/
theorem avbED25519_keypair_sign_spec (H : List UInt8 → Bytes 64) (B : ed25519.Point)
    (k25519SmallPrecomp : List UInt8) (htable : SmallPrecompTable B k25519SmallPrecomp)
    (seed : Bytes 32) (message : List UInt8) :
    (avbED25519KeypairFromSeed H k25519SmallPrecomp seed).1.toList =
        ed25519PublicKey H B seed.toList ∧
      (avbED25519KeypairFromSeed H k25519SmallPrecomp seed).2.toList =
        seed.toList ++ ed25519PublicKey H B seed.toList ∧
      (avbED25519Sign H k25519SmallPrecomp message
          (avbED25519KeypairFromSeed H k25519SmallPrecomp seed).2).1.toList =
        ed25519Signature H B seed.toList (ed25519PublicKey H B seed.toList) message ∧
      (avbED25519Sign H k25519SmallPrecomp message
          (avbED25519KeypairFromSeed H k25519SmallPrecomp seed).2).2 = 1 ∧
      clampBytes 63 (H seed.toList) = clampBytes 127 (H seed.toList) ∧
      leValue (low32 (clampBytes 127 (H seed.toList))).toList = clampScalar (H seed.toList).toList := by
  obtain ⟨hpub, hpriv⟩ := ed25519KeypairFromSeed_eq H htable seed
  have hsign := ed25519Sign_eq H htable message (ed25519KeypairFromSeed H k25519SmallPrecomp seed).2
  rw [hpriv, List.take_left' seed.toList_length, List.drop_left' seed.toList_length] at hsign
  exact ⟨hpub, hpriv, hsign.1, hsign.2, clampBytes_mask _, leValue_clampBytes _⟩

/-- The key pair from the seed of 32 ones, under the hash that returns 64 zero bytes and the
table of the base point, and its signature of the message `[1]`. -/
theorem avbED25519_keypair_sign_basePoint :
    SmallPrecompTable basePoint (smallPrecompTableOf basePoint) ∧
      (avbED25519Sign (fun _ => Mathlib.Vector.replicate 64 0) (smallPrecompTableOf basePoint) [1]
          (avbED25519KeypairFromSeed (fun _ => Mathlib.Vector.replicate 64 0)
            (smallPrecompTableOf basePoint) (Mathlib.Vector.replicate 32 1)).2).1.toList =
        ed25519Signature (fun _ => Mathlib.Vector.replicate 64 0) basePoint
          (Mathlib.Vector.replicate 32 1).toList
          (ed25519PublicKey (fun _ => Mathlib.Vector.replicate 64 0) basePoint
            (Mathlib.Vector.replicate 32 1).toList) [1] :=
  ⟨smallPrecompTable_of basePoint, (avbED25519_keypair_sign_spec _ basePoint _
    (smallPrecompTable_of basePoint) (Mathlib.Vector.replicate 32 1) [1]).2.2.1⟩

end AvbCurve25519
