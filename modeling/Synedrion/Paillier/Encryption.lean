import Mathlib.FieldTheory.Finite.Basic
import Mathlib.NumberTheory.Basic
import Mathlib.Tactic.LinearCombination
import Synedrion.Uint.Pow

/-! Paillier encryption (`paillier/encryption.rs`), modelled from the spec on raw integers. -/

namespace Synedrion.Paillier

def powSigned {R : Type} [Monoid R] [Inv R] (x : R) (e : ℤ) : R :=
  if e < 0 then (x ^ e.natAbs)⁻¹ else x ^ e.natAbs

namespace Ciphertext

def newWithRandomizer (N : ℕ) (m : ℤ) (r : ℕ) : ℕ :=
  ((1 + ((m % N : ℤ) : ZMod (N * N)) * N) * (r : ZMod (N * N)) ^ N).val

def homomorphicAdd (N c c' : ℕ) : ℕ := ((c : ZMod (N * N)) * c').val

def homomorphicMul (N c : ℕ) (e : ℤ) : ℕ := (powSigned (c : ZMod (N * N)) e).val

def homomorphicMulUnsigned (N c e : ℕ) : ℕ := ((c : ZMod (N * N)) ^ e).val

def mulRandomizer (N c r : ℕ) : ℕ := ((c : ZMod (N * N)) * (r : ZMod (N * N)) ^ N).val

def toPrecomputed (N c : ℕ) : ℕ := c % (N * N)

end Ciphertext

def toMasked (N rho coeff : ℕ) (e : ℤ) : ℕ :=
  ((coeff : ZMod N) * powSigned (rho : ZMod N) e).val

section Algebra

variable {N : ℕ}

theorem modulus_mul_self_eq_zero : (N : ZMod (N * N)) * N = 0 := by
  rw [← Nat.cast_mul, ZMod.natCast_self]

theorem intCast_emod_mul_modulus (m : ℤ) :
    ((m % N : ℤ) : ZMod (N * N)) * N = (m : ZMod (N * N)) * N := by
  have h : (m : ZMod (N * N)) = ((m % N : ℤ) : ZMod (N * N)) + N * ((m / N : ℤ) : ZMod (N * N)) := by
    exact_mod_cast congrArg (Int.cast : ℤ → ZMod (N * N)) (Int.emod_add_ediv m N).symm
  rw [h]
  linear_combination (-((m / N : ℤ) : ZMod (N * N))) * modulus_mul_self_eq_zero (N := N)

theorem pow_modulus_congr {x y : ℤ} (h : x ≡ y [ZMOD N]) :
    (x : ZMod (N * N)) ^ N = (y : ZMod (N * N)) ^ N := by
  have hd : (N : ZMod (N * N)) ∣ (x : ZMod (N * N)) - y := by
    rw [← Int.cast_sub, ← Int.cast_natCast]
    exact Int.cast_dvd_cast _ _ (Int.ModEq.dvd h.symm)
  have := dvd_sub_pow_of_dvd_sub hd 1
  rwa [pow_one, pow_two, modulus_mul_self_eq_zero, zero_dvd_iff, sub_eq_zero] at this

def onePlus (m : ℤ) : (ZMod (N * N))ˣ where
  val := 1 + m * N
  inv := 1 - m * N
  val_inv := by
    have h := modulus_mul_self_eq_zero (N := N)
    linear_combination (-(m : ZMod (N * N)) ^ 2) * h
  inv_val := by
    have h := modulus_mul_self_eq_zero (N := N)
    linear_combination (-(m : ZMod (N * N)) ^ 2) * h

@[simp] theorem val_onePlus (m : ℤ) : ((onePlus m : (ZMod (N * N))ˣ) : ZMod (N * N)) = 1 + m * N :=
  rfl

theorem onePlus_add (a b : ℤ) : (onePlus (a + b) : (ZMod (N * N))ˣ) = onePlus a * onePlus b := by
  ext
  simp only [val_onePlus, Units.val_mul, Int.cast_add]
  linear_combination (-(a : ZMod (N * N)) * b) * modulus_mul_self_eq_zero (N := N)

@[simp] theorem onePlus_zero : (onePlus 0 : (ZMod (N * N))ˣ) = 1 := by
  ext
  simp

theorem onePlus_mul (k m : ℤ) : (onePlus (k * m) : (ZMod (N * N))ˣ) = onePlus m ^ k := by
  induction k using Int.induction_on with
  | hz => simp
  | hp k ih => rw [add_mul, one_mul, onePlus_add, ih, zpow_add_one]
  | hn k ih =>
    rw [sub_mul, one_mul, sub_eq_add_neg, onePlus_add, ih, zpow_sub_one, mul_right_inj,
      eq_inv_iff_mul_eq_one, ← onePlus_add, neg_add_cancel, onePlus_zero]

theorem onePlus_congr {a b : ℤ} (h : a ≡ b [ZMOD N]) :
    (onePlus a : (ZMod (N * N))ˣ) = onePlus b := by
  ext
  simp only [val_onePlus, ← intCast_emod_mul_modulus (N := N) a,
    ← intCast_emod_mul_modulus (N := N) b, h.eq]

theorem natCast_pow_modulus_congr {x y : ℕ} (h : (x : ZMod N) = y) :
    (x : ZMod (N * N)) ^ N = (y : ZMod (N * N)) ^ N := by
  have : (x : ℤ) ≡ y [ZMOD N] := (ZMod.intCast_eq_intCast_iff _ _ _).1 (by exact_mod_cast h)
  exact_mod_cast pow_modulus_congr this

theorem powSigned_units {m : ℕ} (u : (ZMod m)ˣ) (e : ℤ) :
    powSigned (u : ZMod m) e = ((u ^ e : (ZMod m)ˣ) : ZMod m) := by
  unfold powSigned
  split
  · rw [← Units.val_pow_eq_pow_val, ZMod.inv_coe_unit, ← zpow_natCast, ← zpow_neg,
      show -(e.natAbs : ℤ) = e by omega]
  · rw [← Units.val_pow_eq_pow_val, ← zpow_natCast, Int.natAbs_of_nonneg (not_lt.1 ‹_›)]

theorem powSigned_eq_uint {m w : ℕ} (x : ZMod m) {e : Signed} (h : e.Valid (8 * w))
    (hx : IsUnit (x ^ e.value.natAbs)) : Uint.powSigned w x e = some (powSigned x e.value) := by
  simp only [Uint.powSigned, Uint.powBoundedExp_eq h.2, Uint.pow_toNat_abs _ h, Uint.selectSigned,
    Option.bind_eq_bind, Option.some_bind, Uint.invert_eq_some_iff.2 ⟨hx, rfl⟩, powSigned]
  rfl

theorem isUnit_powSigned {m : ℕ} {x : ZMod m} {e : ℤ} (h : IsUnit (x ^ e.natAbs)) :
    IsUnit (powSigned x e) := by
  obtain ⟨u, hu⟩ := h
  unfold powSigned
  split_ifs
  · rw [← hu, ZMod.inv_coe_unit]
    exact Units.isUnit _
  · exact hu ▸ u.isUnit

variable [NeZero N]

theorem pow_modulus_val_mul (a b : ZMod N) :
    (((a * b).val : ℕ) : ZMod (N * N)) ^ N =
      ((a.val : ℕ) : ZMod (N * N)) ^ N * ((b.val : ℕ) : ZMod (N * N)) ^ N := by
  rw [← mul_pow, ← Nat.cast_mul]
  exact natCast_pow_modulus_congr (by simp)

def liftRandomizer : (ZMod N)ˣ →* (ZMod (N * N))ˣ where
  toFun u :=
    { val := (((u : ZMod N).val : ℕ) : ZMod (N * N)) ^ N
      inv := ((((u⁻¹ : (ZMod N)ˣ) : ZMod N).val : ℕ) : ZMod (N * N)) ^ N
      val_inv := by rw [← pow_modulus_val_mul, Units.mul_inv, ZMod.val_one_eq_one_mod,
        natCast_pow_modulus_congr (y := 1) (by simp)]; simp
      inv_val := by rw [← pow_modulus_val_mul, Units.inv_mul, ZMod.val_one_eq_one_mod,
        natCast_pow_modulus_congr (y := 1) (by simp)]; simp }
  map_one' := by
    ext
    simp only [Units.val_one, ZMod.val_one_eq_one_mod]
    rw [natCast_pow_modulus_congr (y := 1) (by simp)]
    simp
  map_mul' u v := by
    ext
    show ((((u * v : (ZMod N)ˣ) : ZMod N).val : ℕ) : ZMod (N * N)) ^ N = _
    rw [Units.val_mul, pow_modulus_val_mul]
    rfl

theorem val_liftRandomizer (u : (ZMod N)ˣ) :
    ((liftRandomizer u : (ZMod (N * N))ˣ) : ZMod (N * N)) =
      (((u : ZMod N).val : ℕ) : ZMod (N * N)) ^ N := rfl

theorem natCast_pow_modulus_eq {r : ℕ} {u : (ZMod N)ˣ} (h : (r : ZMod N) = u) :
    (r : ZMod (N * N)) ^ N = liftRandomizer u := by
  rw [val_liftRandomizer]
  exact natCast_pow_modulus_congr (by simp [h])

def encUnit (m : ℤ) (u : (ZMod N)ˣ) : (ZMod (N * N))ˣ := onePlus m * liftRandomizer u

theorem encUnit_mul (a b : ℤ) (u v : (ZMod N)ˣ) :
    encUnit a u * encUnit b v = encUnit (a + b) (u * v) := by
  simp only [encUnit, onePlus_add, map_mul]
  ac_rfl

theorem encUnit_zpow (m k : ℤ) (u : (ZMod N)ˣ) : encUnit m u ^ k = encUnit (k * m) (u ^ k) := by
  simp only [encUnit, mul_zpow, onePlus_mul, map_zpow]

theorem encUnit_congr {a b : ℤ} (h : a ≡ b [ZMOD N]) (u : (ZMod N)ˣ) :
    encUnit a u = encUnit b u := by
  rw [encUnit, encUnit, onePlus_congr h]

theorem intCast_mul_modulus (a : ℤ) :
    (a : ZMod (N * N)) * N = (((a : ZMod N).val : ℕ) : ZMod (N * N)) * N := by
  have h : (((a : ZMod N).val : ℕ) : ZMod (N * N)) = ((a % N : ℤ) : ZMod (N * N)) := by
    rw [← ZMod.val_intCast, Int.cast_natCast]
  rw [h, intCast_emod_mul_modulus]

end Algebra

namespace Ciphertext

variable {N : ℕ} [NeZero N]

@[simp] theorem cast_newWithRandomizer (m : ℤ) (r : ℕ) :
    (newWithRandomizer N m r : ZMod (N * N)) = (1 + (m : ZMod (N * N)) * N) * (r : ZMod (N * N)) ^ N := by
  rw [newWithRandomizer, ZMod.natCast_zmod_val, add_mul, add_mul, intCast_emod_mul_modulus]

theorem cast_newWithRandomizer_of_unit (m : ℤ) {r : ℕ} {u : (ZMod N)ˣ} (h : (r : ZMod N) = u) :
    (newWithRandomizer N m r : ZMod (N * N)) = encUnit m u := by
  rw [cast_newWithRandomizer, natCast_pow_modulus_eq h]
  rfl

@[simp] theorem cast_homomorphicAdd (c c' : ℕ) :
    (homomorphicAdd N c c' : ZMod (N * N)) = c * c' := ZMod.natCast_zmod_val _

@[simp] theorem cast_homomorphicMul (c : ℕ) (e : ℤ) :
    (homomorphicMul N c e : ZMod (N * N)) = powSigned (c : ZMod (N * N)) e :=
  ZMod.natCast_zmod_val _

@[simp] theorem cast_homomorphicMulUnsigned (c e : ℕ) :
    (homomorphicMulUnsigned N c e : ZMod (N * N)) = (c : ZMod (N * N)) ^ e :=
  ZMod.natCast_zmod_val _

@[simp] theorem cast_mulRandomizer (c r : ℕ) :
    (mulRandomizer N c r : ZMod (N * N)) = c * (r : ZMod (N * N)) ^ N :=
  ZMod.natCast_zmod_val _

theorem cast_newWithRandomizer_mul (a b : ℤ) (r s : ℕ) :
    (newWithRandomizer N a r : ZMod (N * N)) * newWithRandomizer N b s =
      newWithRandomizer N (a + b) (r * s) := by
  simp only [cast_newWithRandomizer, Int.cast_add, Nat.cast_mul, mul_pow]
  linear_combination (a : ZMod (N * N)) * b * (r : ZMod (N * N)) ^ N * (s : ZMod (N * N)) ^ N *
    modulus_mul_self_eq_zero (N := N)

omit [NeZero N] in
theorem eq_of_cast_eq {c c' : ℕ} (hc : c < N * N) (hc' : c' < N * N)
    (h : (c : ZMod (N * N)) = c') : c = c' := by
  rw [← ZMod.val_natCast_of_lt hc, ← ZMod.val_natCast_of_lt hc', h]

omit [NeZero N] in
theorem toPrecomputed_of_lt {c : ℕ} (hc : c < N * N) : toPrecomputed N c = c := Nat.mod_eq_of_lt hc

theorem newWithRandomizer_lt (m : ℤ) (r : ℕ) : newWithRandomizer N m r < N * N := ZMod.val_lt _

theorem homomorphicAdd_lt (c c' : ℕ) : homomorphicAdd N c c' < N * N := ZMod.val_lt _

theorem homomorphicMul_lt (c : ℕ) (e : ℤ) : homomorphicMul N c e < N * N := ZMod.val_lt _

theorem cast_toMasked (rho r : (ZMod N)ˣ) (e : ℤ) :
    (toMasked N (rho : ZMod N).val (r : ZMod N).val e : ZMod N) = ((r * rho ^ e : (ZMod N)ˣ) : ZMod N) := by
  rw [toMasked, ZMod.natCast_zmod_val, ZMod.natCast_zmod_val, ZMod.natCast_zmod_val,
    powSigned_units, Units.val_mul]

theorem newWithRandomizer_response (x alpha e : ℤ) (rho r : (ZMod N)ˣ) :
    newWithRandomizer N (alpha + x * e) (toMasked N (rho : ZMod N).val (r : ZMod N).val e) =
      homomorphicAdd N (newWithRandomizer N alpha (r : ZMod N).val)
        (homomorphicMul N (newWithRandomizer N x (rho : ZMod N).val) e) := by
  refine eq_of_cast_eq (newWithRandomizer_lt _ _) (homomorphicAdd_lt _ _) ?_
  rw [cast_newWithRandomizer_of_unit _ (cast_toMasked rho r e), cast_homomorphicAdd,
    cast_homomorphicMul, cast_newWithRandomizer_of_unit _ (ZMod.natCast_zmod_val _),
    cast_newWithRandomizer_of_unit _ (ZMod.natCast_zmod_val _), powSigned_units, ← Units.val_mul,
    encUnit_zpow, encUnit_mul, mul_comm x e]

end Ciphertext

def Encrypts (N : ℕ) [NeZero N] (c : ℕ) (m : ℤ) : Prop := ∃ u : (ZMod N)ˣ, (c : ZMod (N * N)) = encUnit m u

namespace Encrypts

variable {N : ℕ} [NeZero N] {c c' : ℕ} {a b : ℤ}

theorem newWithRandomizer (m : ℤ) {r : ℕ} (hr : IsUnit (r : ZMod N)) :
    Encrypts N (Ciphertext.newWithRandomizer N m r) m :=
  ⟨hr.unit, Ciphertext.cast_newWithRandomizer_of_unit m hr.unit_spec.symm⟩

theorem homomorphicAdd (h : Encrypts N c a) (h' : Encrypts N c' b) :
    Encrypts N (Ciphertext.homomorphicAdd N c c') (a + b) := by
  obtain ⟨u, hu⟩ := h
  obtain ⟨v, hv⟩ := h'
  exact ⟨u * v, by rw [Ciphertext.cast_homomorphicAdd, hu, hv, ← Units.val_mul, encUnit_mul]⟩

theorem homomorphicMul (h : Encrypts N c a) (e : ℤ) :
    Encrypts N (Ciphertext.homomorphicMul N c e) (e * a) := by
  obtain ⟨u, hu⟩ := h
  exact ⟨u ^ e, by rw [Ciphertext.cast_homomorphicMul, hu, powSigned_units, encUnit_zpow]⟩

/-- On a ciphertext of a plaintext the code's `pow_signed` does not panic: `homomorphic_mul`. -/
theorem powSigned_uint (h : Encrypts N c a) {w : ℕ} {e : Signed} (he : e.Valid (8 * w)) :
    (Uint.powSigned w (c : ZMod (N * N)) e).map ZMod.val =
      some (Ciphertext.homomorphicMul N c e.value) := by
  obtain ⟨u, hu⟩ := h
  rw [powSigned_eq_uint _ he (by rw [hu]; exact (Units.isUnit _).pow _)]
  rfl

theorem powSigned_uint_small :
    Encrypts 15 (Ciphertext.newWithRandomizer 15 1 2) 1 ∧ Signed.Valid (8 * 1) ⟨1, 1⟩ ∧
      (Uint.powSigned 1 (Ciphertext.newWithRandomizer 15 1 2 : ZMod (15 * 15)) ⟨1, 1⟩).map
          ZMod.val =
        some (Ciphertext.homomorphicMul 15 (Ciphertext.newWithRandomizer 15 1 2) 1) := by
  have h : Encrypts 15 (Ciphertext.newWithRandomizer 15 1 2) 1 :=
    newWithRandomizer 1 ((ZMod.isUnit_iff_coprime 2 15).2 (by decide))
  have hv : Signed.Valid (8 * 1) ⟨1, 1⟩ := ⟨by decide, by decide⟩
  exact ⟨h, hv, powSigned_uint h hv⟩

theorem homomorphicMulUnsigned (h : Encrypts N c a) (e : ℕ) :
    Encrypts N (Ciphertext.homomorphicMulUnsigned N c e) (e * a) := by
  obtain ⟨u, hu⟩ := h
  refine ⟨u ^ (e : ℤ), ?_⟩
  rw [Ciphertext.cast_homomorphicMulUnsigned, hu, ← encUnit_zpow, zpow_natCast,
    Units.val_pow_eq_pow_val]

theorem mulRandomizer (h : Encrypts N c a) {r : ℕ} (hr : IsUnit (r : ZMod N)) :
    Encrypts N (Ciphertext.mulRandomizer N c r) a := by
  obtain ⟨u, hu⟩ := h
  refine ⟨u * hr.unit, ?_⟩
  rw [Ciphertext.cast_mulRandomizer, hu, natCast_pow_modulus_eq hr.unit_spec.symm, encUnit,
    encUnit, map_mul, ← mul_assoc]
  simp only [Units.val_mul]

theorem congr (h : Encrypts N c a) (hab : a ≡ b [ZMOD N]) : Encrypts N c b := by
  obtain ⟨u, hu⟩ := h
  exact ⟨u, by rw [hu, encUnit_congr hab]⟩

end Encrypts

end Synedrion.Paillier
