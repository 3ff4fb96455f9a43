import Synedrion.Uint.Bounded
import Synedrion.Uint.Signed

/-! Exponentiation by bounded, wide and signed exponents (`uint/pow.rs`). -/

namespace Synedrion

/-- Modelled from the spec: `Signed::abs`, the magnitude as an integer of `T`'s width. -/
def Signed.abs (w : ℕ) (s : Signed) : Uint w := BitVec.ofNat _ s.value.natAbs

namespace Uint

variable {N w : ℕ}

/-- Modelled from the spec: `invert`, a `CtOption` holding the inverse when there is one. -/
def invert (x : ZMod N) : Option (ZMod N) := if x * x⁻¹ = 1 then some x⁻¹ else none

def powStep (u : ZMod N) (exponent : Uint w) (acc : ZMod N) (i : ℕ) : ZMod N :=
  acc * acc * if exponent.getLsbD i then u else 1

/-- Modelled from the spec: `pow_bounded_exp` over the `bound` low bits; past the width, a panic. -/
def powBoundedExp (u : ZMod N) (exponent : Uint w) (bound : ℕ) : Option (ZMod N) :=
  if bound ≤ 8 * w then some ((List.range bound).reverse.foldl (powStep u exponent) 1) else none

/-- Modelled from the spec: `HasWide::from_wide`, the low and the high half. -/
def fromWide (x : Uint (2 * w)) : Uint w × Uint w :=
  (BitVec.ofNat _ x.toNat, BitVec.ofNat _ (x.toNat / 2 ^ (8 * w)))

def powChunks (pow : Uint w → ℕ → Option (ZMod N)) (lo hi : Uint w) (bound : ℕ) :
    Option (ZMod N) := do
  let loRes ← pow lo (min (8 * w) bound)
  if bound > 8 * w then
    let hiRes ← pow hi (bound - 8 * w)
    pure ((fun x => x * x)^[8 * w] hiRes * loRes)
  else
    pure loRes

def powWide (u : ZMod N) (exponent : Uint (2 * w)) (bound : ℕ) : Option (ZMod N) :=
  let (lo, hi) := fromWide exponent
  powChunks (powBoundedExp u) lo hi (bound % (2 * (8 * w) + 1))

def selectSigned (exponent : Signed) (absResult : Option (ZMod N)) : Option (ZMod N) := do
  let absResult ← absResult
  let invResult ← invert absResult
  pure (if exponent.value < 0 then invResult else absResult)

def powSigned (w : ℕ) (u : ZMod N) (exponent : Signed) : Option (ZMod N) :=
  selectSigned exponent (powBoundedExp u (exponent.abs w) exponent.bound)

def powSignedWide (w : ℕ) (u : ZMod N) (exponent : Signed) : Option (ZMod N) :=
  selectSigned exponent (powWide u (exponent.abs (2 * w)) exponent.bound)

def powSignedExtraWide (w : ℕ) (u : ZMod N) (exponent : Signed) : Option (ZMod N) :=
  let (wlo, whi) := fromWide (exponent.abs (2 * (2 * w)))
  selectSigned exponent (powChunks (powWide u) wlo whi exponent.bound)

def powSignedVartime (w : ℕ) (u : ZMod N) (exponent : Signed) : Option (ZMod N) := do
  let absResult ← powBoundedExp u (exponent.abs w) exponent.bound
  if exponent.value < 0 then invert absResult else pure absResult

theorem invert_eq_some_iff {x y : ZMod N} : invert x = some y ↔ IsUnit x ∧ x⁻¹ = y := by
  unfold invert
  split_ifs with h
  · exact ⟨fun e => ⟨isUnit_of_mul_eq_one _ _ h, Option.some_inj.1 e⟩, fun e => congrArg _ e.2⟩
  · exact ⟨nofun, fun e => h (ZMod.mul_inv_of_unit x e.1)⟩

theorem invert_eq_none_iff {x : ZMod N} : invert x = none ↔ ¬IsUnit x := by
  rw [← not_iff_not, ← ne_eq, Option.ne_none_iff_exists', not_not]
  exact ⟨fun ⟨_, h⟩ => (invert_eq_some_iff.1 h).1, fun h => ⟨_, invert_eq_some_iff.2 ⟨h, rfl⟩⟩⟩

theorem invert_unit (u : (ZMod N)ˣ) : invert (u : ZMod N) = some ↑u⁻¹ :=
  invert_eq_some_iff.2 ⟨u.isUnit, ZMod.inv_coe_unit u⟩

theorem foldl_powStep (u : ZMod N) (exponent : Uint w) (b : ℕ) (acc : ZMod N) :
    (List.range b).reverse.foldl (powStep u exponent) acc =
      acc ^ 2 ^ b * u ^ (exponent.toNat % 2 ^ b) := by
  induction b generalizing acc with
  | zero => simp [Nat.mod_one]
  | succ b ih =>
    have hmod : exponent.toNat % 2 ^ (b + 1) =
        exponent.toNat % 2 ^ b + 2 ^ b * (exponent.toNat / 2 ^ b % 2) := by
      rw [pow_succ]
      exact Nat.mod_mul
    rw [List.range_succ, List.reverse_append, List.reverse_singleton, List.singleton_append,
      List.foldl_cons, ih, hmod, powStep, BitVec.getLsbD, Nat.testBit_to_div_mod]
    rcases Nat.mod_two_eq_zero_or_one (exponent.toNat / 2 ^ b) with h | h <;> simp [h] <;> ring

theorem powBoundedExp_eq {bound : ℕ} (h : bound ≤ 8 * w) (u : ZMod N) (exponent : Uint w) :
    powBoundedExp u exponent bound = some (u ^ (exponent.toNat % 2 ^ bound)) := by
  rw [powBoundedExp, if_pos h, foldl_powStep, one_pow, one_mul]

theorem powBoundedExp_eq_none_iff {u : ZMod N} {exponent : Uint w} {bound : ℕ} :
    powBoundedExp u exponent bound = none ↔ 8 * w < bound := by
  simp [powBoundedExp]

theorem iterate_square (n : ℕ) (x : ZMod N) : (fun y => y * y)^[n] x = x ^ 2 ^ n := by
  induction n with
  | zero => simp
  | succ n ih => rw [Function.iterate_succ_apply', ih, ← sq, ← pow_mul, ← pow_succ]

theorem toNat_fromWide (x : Uint (2 * w)) :
    (fromWide x).1.toNat + 2 ^ (8 * w) * (fromWide x).2.toNat = x.toNat := by
  have hx : x.toNat / 2 ^ (8 * w) < 2 ^ (8 * w) := by
    rw [Nat.div_lt_iff_lt_mul (by positivity), ← pow_add]
    exact x.isLt.trans_eq (by ring_nf)
  simp only [fromWide, BitVec.toNat_ofNat, Nat.mod_eq_of_lt hx]
  exact Nat.mod_add_div _ _

theorem powChunks_eq {pow : Uint w → ℕ → Option (ZMod N)} {u : ZMod N}
    (hpow : ∀ x b, b ≤ 8 * w → pow x b = some (u ^ (x.toNat % 2 ^ b))) (lo hi : Uint w)
    {bound : ℕ} (h : bound ≤ 2 * (8 * w)) :
    powChunks pow lo hi bound =
      some (u ^ ((lo.toNat + 2 ^ (8 * w) * hi.toNat) % 2 ^ bound)) := by
  have hlo := lo.isLt
  unfold powChunks
  simp only [hpow _ _ (min_le_left _ _), Option.bind_eq_bind, Option.some_bind]
  split_ifs with hgt
  · simp only [hpow _ _ (by omega : bound - 8 * w ≤ 8 * w), Option.some_bind]
    rw [min_eq_left hgt.le, iterate_square,
      Nat.mod_eq_of_lt hlo, ← pow_mul, ← pow_add]
    have hsplit : 2 ^ bound = 2 ^ (8 * w) * 2 ^ (bound - 8 * w) := by
      rw [← pow_add, Nat.add_sub_cancel' hgt.le]
    rw [hsplit, Nat.mod_mul, Nat.add_mul_mod_self_left, Nat.mod_eq_of_lt hlo,
      Nat.add_mul_div_left _ _ (by positivity), Nat.div_eq_of_lt hlo, zero_add]
    exact congrArg (fun n => some (u ^ n)) (by ring)
  · have hsplit : 2 ^ (8 * w) = 2 ^ bound * 2 ^ (8 * w - bound) := by
      rw [← pow_add, Nat.add_sub_cancel' (by omega)]
    rw [min_eq_right (by omega), hsplit, mul_assoc, Nat.add_mul_mod_self_left]
    rfl

theorem powChunks_fromWide {pow : Uint w → ℕ → Option (ZMod N)} {u : ZMod N}
    (hpow : ∀ x b, b ≤ 8 * w → pow x b = some (u ^ (x.toNat % 2 ^ b))) (x : Uint (2 * w))
    {bound : ℕ} (h : bound ≤ 2 * (8 * w)) :
    powChunks pow (fromWide x).1 (fromWide x).2 bound = some (u ^ (x.toNat % 2 ^ bound)) := by
  rw [powChunks_eq hpow _ _ h, toNat_fromWide]

theorem powWide_spec (u : ZMod N) (exponent : Uint (2 * w)) (bound : ℕ) :
    powWide u exponent bound =
      some (u ^ (exponent.toNat % 2 ^ (bound % (2 * (8 * w) + 1)))) :=
  powChunks_fromWide (fun x _ hb => powBoundedExp_eq hb u x) exponent
    (Nat.lt_succ_iff.1 (Nat.mod_lt _ (Nat.succ_pos _)))

/-- `pow_wide` is one bounded exponentiation by `e mod 2^bound`, for bounds up to `2 * BITS`. -/
theorem powWide_eq (u : ZMod N) (exponent : Uint (2 * w)) {bound : ℕ} (h : bound ≤ 2 * (8 * w)) :
    powWide u exponent bound = some (u ^ (exponent.toNat % 2 ^ bound)) := by
  rw [powWide_spec, Nat.mod_eq_of_lt (Nat.lt_succ_of_le h)]

theorem powWide_eq_small :
    11 ≤ 2 * (8 * 1) ∧ powWide (3 : ZMod 7) (773 : Uint (2 * 1)) 11 = some (3 ^ (773 % 2 ^ 11)) :=
  ⟨by decide, powWide_eq _ _ (by decide)⟩

section Signed

variable {e : Signed}

theorem toNat_abs (h : e.Valid (8 * w)) : (e.abs w).toNat = e.value.natAbs := by
  rw [Signed.abs, BitVec.toNat_ofNat,
    Nat.mod_eq_of_lt (h.1.trans_le (Nat.pow_le_pow_right two_pos h.2))]

theorem pow_toNat_abs (x : ZMod N) (h : e.Valid (8 * w)) :
    x ^ ((e.abs w).toNat % 2 ^ e.bound) = x ^ e.value.natAbs := by
  rw [toNat_abs h, Nat.mod_eq_of_lt h.1]

theorem ite_pow_natAbs (u : (ZMod N)ˣ) (a : ℤ) :
    (if a < 0 then (u ^ a.natAbs)⁻¹ else u ^ a.natAbs) = u ^ a := by
  split_ifs with hneg
  · rw [← zpow_natCast, ← zpow_neg, show -(a.natAbs : ℤ) = a by omega]
  · rw [← zpow_natCast, Int.natAbs_of_nonneg (not_lt.1 hneg)]

theorem selectSigned_unit (u : (ZMod N)ˣ) (e : Signed) :
    selectSigned e (some ((u : ZMod N) ^ e.value.natAbs)) = some ↑(u ^ e.value) := by
  simp only [selectSigned, Option.bind_eq_bind, Option.some_bind, ← Units.val_pow_eq_pow_val,
    invert_unit, ← ite_pow_natAbs u e.value, apply_ite Units.val]
  rfl

theorem powSigned_eq (u : (ZMod N)ˣ) (h : e.Valid (8 * w)) :
    powSigned w (u : ZMod N) e = some ↑(u ^ e.value) := by
  rw [powSigned, powBoundedExp_eq h.2, pow_toNat_abs _ h, selectSigned_unit]

theorem powSignedVartime_eq (u : (ZMod N)ˣ) (h : e.Valid (8 * w)) :
    powSignedVartime w (u : ZMod N) e = some ↑(u ^ e.value) := by
  simp only [powSignedVartime, powBoundedExp_eq h.2, pow_toNat_abs _ h, Option.bind_eq_bind,
    Option.some_bind, ← Units.val_pow_eq_pow_val, ← ite_pow_natAbs u e.value]
  split_ifs
  · exact invert_unit _
  · rfl

theorem powSignedWide_eq (u : (ZMod N)ˣ) (h : e.Valid (8 * (2 * w))) :
    powSignedWide w (u : ZMod N) e = some ↑(u ^ e.value) := by
  rw [powSignedWide, powWide_spec, Nat.mod_eq_of_lt (Nat.lt_succ_of_le (h.2.trans_eq (by ring))),
    pow_toNat_abs _ h, selectSigned_unit]

theorem powSignedExtraWide_eq (u : (ZMod N)ˣ) (h : e.Valid (8 * (2 * (2 * w)))) :
    powSignedExtraWide w (u : ZMod N) e = some ↑(u ^ e.value) := by
  have hpow (x : Uint (2 * w)) (b : ℕ) (hb : b ≤ 8 * (2 * w)) :
      powWide (u : ZMod N) x b = some ((u : ZMod N) ^ (x.toNat % 2 ^ b)) := by
    rw [powWide_spec, Nat.mod_eq_of_lt (Nat.lt_succ_of_le (hb.trans_eq (by ring)))]
  have hwide := powChunks_fromWide hpow (e.abs (2 * (2 * w))) (h.2.trans_eq (by ring))
  rw [pow_toNat_abs _ h] at hwide
  exact (congrArg (selectSigned e) hwide).trans (selectSigned_unit u e)

/-- Signed exponentiation is exact: every `pow_signed` variant returns `u ^ e` for a unit `u`. -/
theorem powSigned_exact (w : ℕ) (u : (ZMod N)ˣ) :
    (∀ e : Signed, e.Valid (8 * w) →
      powSigned w (u : ZMod N) e = some ↑(u ^ e.value) ∧
        powSignedVartime w (u : ZMod N) e = some ↑(u ^ e.value)) ∧
    (∀ e : Signed, e.Valid (8 * (2 * w)) →
      powSignedWide w (u : ZMod N) e = some ↑(u ^ e.value)) ∧
    (∀ e : Signed, e.Valid (8 * (2 * (2 * w))) →
      powSignedExtraWide w (u : ZMod N) e = some ↑(u ^ e.value)) :=
  ⟨fun _ h => ⟨powSigned_eq u h, powSignedVartime_eq u h⟩, fun _ => powSignedWide_eq u,
    fun _ => powSignedExtraWide_eq u⟩

/-- `pow_signed` panics exactly when `x ^ |e|` has no inverse, whatever the sign of `e`. -/
theorem powSigned_eq_none_iff (x : ZMod N) (h : e.Valid (8 * w)) :
    powSigned w x e = none ↔ ¬IsUnit (x ^ e.value.natAbs) := by
  rw [← invert_eq_none_iff, powSigned, powBoundedExp_eq h.2, pow_toNat_abs _ h]
  simp only [selectSigned, Option.bind_eq_bind, Option.some_bind]
  cases invert (x ^ e.value.natAbs) <;> simp

theorem powSigned_three_mod_nine : powSigned 1 (3 : ZMod 9) ⟨1, 1⟩ = none := by
  refine (powSigned_eq_none_iff _ ⟨by decide, by decide⟩).2 ?_
  rw [show (3 : ZMod 9) ^ (1 : ℤ).natAbs = ((3 : ℕ) : ZMod 9) from rfl, ZMod.isUnit_iff_coprime]
  decide

/-- `pow_signed_vartime` computes the inverse only for `e < 0`, so it panics only there. -/
theorem powSignedVartime_eq_none_iff (x : ZMod N) (h : e.Valid (8 * w)) :
    powSignedVartime w x e = none ↔ e.value < 0 ∧ ¬IsUnit (x ^ e.value.natAbs) := by
  rw [← invert_eq_none_iff, powSignedVartime, powBoundedExp_eq h.2, pow_toNat_abs _ h]
  simp only [Option.bind_eq_bind, Option.some_bind]
  split_ifs with hneg <;> simp [hneg]

theorem powSignedVartime_three_mod_nine : powSignedVartime 1 (3 : ZMod 9) ⟨1, 1⟩ ≠ none :=
  fun h => absurd ((powSignedVartime_eq_none_iff _ ⟨by decide, by decide⟩).1 h).1 (by decide)

end Signed

end Uint

end Synedrion
