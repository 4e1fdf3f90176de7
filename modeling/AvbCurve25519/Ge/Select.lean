import AvbCurve25519.Ge.Formulas

/-!
# Constant-time table lookup

`fe_cmov` (`avb_curve25519.c:274-292`) replaces `f` by `g` when `b = 1` and keeps it when
`b = 0`; `cmov` and `cmov_cached` (`avb_curve25519.c:680-684`, `744-749`) apply it to every
coordinate of a `ge_precomp` or a `ge_cached`. The lookups of
`x25519_ge_scalarmult_small_precomp` and `x25519_ge_scalarmult` scan the whole table and move
entry `j` in where `constant_time_eq_w(index, j)` says it is the one asked for.

`foldl_select` shows that such a scan returns the entry at `index`, or the start value when
`index` is not among the scanned positions.
-/

namespace AvbCurve25519

/-- `constant_time_eq_w` (not among the sources). Modelled from the spec: a word of all ones
where `a = b`, zero otherwise. -/
def constantTimeEqW (a b : ℕ) : ℕ := if a = b then 2 ^ 64 - 1 else 0

/-- `fe_cmov` (`avb_curve25519.c:274-292`), whose precondition is `b ∈ {0, 1}`: the limbwise
mask `0 - b` moves `g` in when `b = 1` and keeps `f` when `b = 0`. -/
def feCmov (f g : Fe) (b : ℕ) : Fe := if b = 1 then g else f

/-- `cmov` (`avb_curve25519.c:680-684`). -/
def cmov (t u : GePrecomp) (b : ℕ) : GePrecomp :=
  ⟨feCmov t.yplusx u.yplusx b, feCmov t.yminusx u.yminusx b, feCmov t.xy2d u.xy2d b⟩

/-- `cmov_cached` (`avb_curve25519.c:744-749`). -/
def cmovCached (t u : GeCached) (b : ℕ) : GeCached :=
  ⟨feCmov t.YplusX u.YplusX b, feCmov t.YminusX u.YminusX b, feCmov t.Z u.Z b,
    feCmov t.T2d u.T2d b⟩

theorem cmov_eq (t u : GePrecomp) (b : ℕ) : cmov t u b = if b = 1 then u else t := by
  unfold cmov feCmov
  split_ifs <;> rfl

theorem cmovCached_eq (t u : GeCached) (b : ℕ) : cmovCached t u b = if b = 1 then u else t := by
  unfold cmovCached feCmov
  split_ifs <;> rfl

/-- The selection bit `1 & constant_time_eq_w(index, j)` is `1` exactly at `j = index`. -/
theorem one_and_constantTimeEqW (a b : ℕ) : 1 &&& constantTimeEqW a b = 1 ↔ a = b := by
  unfold constantTimeEqW
  split_ifs with h
  · exact ⟨fun _ => h, fun _ => by decide⟩
  · exact ⟨fun h' => absurd h' (by decide), fun h' => absurd h' h⟩

/-- A constant-time scan over distinct positions `js` returns the entry at `index` when
`index` is one of them, and its start value otherwise. -/
theorem foldl_select {α : Type} (sel : α → α → ℕ → α)
    (hsel : ∀ t u b, sel t u b = if b = 1 then u else t) (entry : ℕ → α) (index : ℕ)
    (js : List ℕ) (hjs : js.Nodup) (e : α) :
    js.foldl (fun e j => sel e (entry j) (1 &&& constantTimeEqW index j)) e =
      if index ∈ js then entry index else e := by
  induction js generalizing e with
  | nil => simp
  | cons j js ih =>
    obtain ⟨hj, hnd⟩ := List.nodup_cons.mp hjs
    rw [List.foldl_cons, ih hnd, hsel]
    by_cases h : index = j
    · subst h
      rw [if_pos ((one_and_constantTimeEqW index index).2 rfl)]
      simp [hj]
    · rw [if_neg (mt (one_and_constantTimeEqW index j).1 h)]
      simp [h]

/-- A scan that reads entry `j` of a table at every step succeeds when every entry it reads is
written, and then computes the scan over the written values. -/
theorem foldlM_map_eq_some {α β : Type} (read : ℕ → Option β) (entry : ℕ → β)
    (step : α → β → ℕ → α) (js : List ℕ) (hread : ∀ j ∈ js, read j = some (entry j)) (s : α) :
    js.foldlM (fun s j => (read j).map fun b => step s b j) s =
      some (js.foldl (fun s j => step s (entry j) j) s) := by
  induction js generalizing s with
  | nil => rfl
  | cons j js ih =>
    rw [List.foldlM_cons, hread j (List.mem_cons_self j js), Option.map_some']
    exact ih (fun j hj => hread j (List.mem_cons_of_mem _ hj)) _

end AvbCurve25519
