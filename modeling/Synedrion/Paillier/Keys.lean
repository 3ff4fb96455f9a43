import Synedrion.Paillier.Encryption
import Mathlib.Tactic.NormNum.Prime

/-! Paillier secret keys (`paillier/keys.rs`), modelled from the spec. -/

namespace Synedrion.Paillier

structure SecretKey (primeBits : ℕ) where
  p : ℕ
  q : ℕ
  p_prime : p.Prime
  q_prime : q.Prime
  p_safe : ((p - 1) / 2).Prime
  q_safe : ((q - 1) / 2).Prime
  p_ne_q : p ≠ q
  p_lt : p < 2 ^ primeBits
  q_lt : q < 2 ^ primeBits
  p_ge : 2 ^ (primeBits - 1) ≤ p
  q_ge : 2 ^ (primeBits - 1) ≤ q

namespace SecretKey

variable {k : ℕ} (sk : SecretKey k)

def modulus : ℕ := sk.p * sk.q

def totient : ℕ := (sk.p - 1) * (sk.q - 1)

def mu : ZMod sk.modulus := (sk.totient : ZMod sk.modulus)⁻¹

def invModulus : ZMod sk.totient := (sk.modulus : ZMod sk.totient)⁻¹

def decrypt (c : ℕ) : ℕ :=
  ((((c : ZMod (sk.modulus * sk.modulus)) ^ sk.totient).val - 1) / sk.modulus * sk.mu.val) %
    sk.modulus

def decryptSigned (c : ℕ) : ℤ :=
  if sk.modulus < 2 * sk.decrypt c then (sk.decrypt c : ℤ) - sk.modulus else sk.decrypt c

def deriveRandomizer (c : ℕ) : ℕ := ((c : ZMod sk.modulus) ^ sk.invModulus.val).val

theorem five_le_p : 5 ≤ sk.p := by
  have h := sk.p_safe.two_le
  omega

theorem five_le_q : 5 ≤ sk.q := by
  have h := sk.q_safe.two_le
  omega

theorem one_lt_modulus : 1 < sk.modulus := by
  have := sk.five_le_p
  have := sk.five_le_q
  unfold modulus
  nlinarith

instance : NeZero sk.modulus := ⟨by have := sk.one_lt_modulus; omega⟩

instance : NeZero sk.totient := ⟨by
  have := sk.five_le_p
  have := sk.five_le_q
  exact (Nat.mul_pos (by omega) (by omega)).ne'⟩

theorem totient_eq : sk.totient = Nat.totient sk.modulus := by
  rw [modulus, Nat.totient_mul ((Nat.coprime_primes sk.p_prime sk.q_prime).2 sk.p_ne_q),
    Nat.totient_prime sk.p_prime, Nat.totient_prime sk.q_prime, totient]

theorem not_dvd_pred {a b : ℕ} (ha : a.Prime) (hb5 : 5 ≤ b) (hbodd : b % 2 = 1) (hao : a % 2 = 1)
    (hab : b - 1 < 2 * a) : ¬ a ∣ b - 1 := by
  rintro ⟨c, hc⟩
  have h2 := ha.two_le
  rcases c with _ | _ | c
  · omega
  · omega
  · nlinarith

theorem odd_of_safe {p : ℕ} (hp : p.Prime) (hs : ((p - 1) / 2).Prime) : p % 2 = 1 := by
  rcases hp.eq_two_or_odd with rfl | h
  · exact absurd hs (by decide)
  · exact h

theorem two_pow_primeBits (sk : SecretKey k) : 2 ^ k = 2 * 2 ^ (k - 1) := by
  have hk : k ≠ 0 := by
    rintro rfl
    have := sk.p_lt
    have := sk.five_le_p
    simp at *
    omega
  rw [← pow_succ']
  congr 1
  omega

theorem coprime_modulus_totient : Nat.Coprime sk.modulus sk.totient := by
  have hp5 := sk.five_le_p
  have hq5 := sk.five_le_q
  have hpo := odd_of_safe sk.p_prime sk.p_safe
  have hqo := odd_of_safe sk.q_prime sk.q_safe
  have h2 := sk.two_pow_primeBits
  have hqp : sk.q - 1 < 2 * sk.p := by
    have := sk.q_lt
    have := sk.p_ge
    omega
  have hpq : sk.p - 1 < 2 * sk.q := by
    have := sk.p_lt
    have := sk.q_ge
    omega
  unfold modulus totient
  refine Nat.Coprime.mul (Nat.Coprime.mul_right ?_ ?_) (Nat.Coprime.mul_right ?_ ?_)
  · exact (Nat.Prime.coprime_iff_not_dvd sk.p_prime).2 (Nat.not_dvd_of_pos_of_lt (by omega) (by omega))
  · exact (Nat.Prime.coprime_iff_not_dvd sk.p_prime).2 (not_dvd_pred sk.p_prime hq5 hqo hpo hqp)
  · exact (Nat.Prime.coprime_iff_not_dvd sk.q_prime).2 (not_dvd_pred sk.q_prime hp5 hpo hqo hpq)
  · exact (Nat.Prime.coprime_iff_not_dvd sk.q_prime).2 (Nat.not_dvd_of_pos_of_lt (by omega) (by omega))

theorem totient_mul_mu : (sk.totient : ZMod sk.modulus) * sk.mu = 1 :=
  ZMod.coe_mul_inv_eq_one _ sk.coprime_modulus_totient.symm

theorem totient_modulus_mul_self :
    Nat.totient (sk.modulus * sk.modulus) = sk.modulus * sk.totient := by
  have h := Nat.totient_gcd_mul_totient_mul sk.modulus sk.modulus
  rw [Nat.gcd_self, ← sk.totient_eq] at h
  have hpos : 0 < sk.totient := Nat.pos_of_ne_zero (NeZero.ne _)
  have : sk.totient * Nat.totient (sk.modulus * sk.modulus) =
      sk.totient * (sk.modulus * sk.totient) := by rw [h]; ring
  exact Nat.eq_of_mul_eq_mul_left hpos this

theorem liftRandomizer_pow_totient (u : (ZMod sk.modulus)ˣ) :
    liftRandomizer u ^ sk.totient = 1 := by
  have hcop : Nat.Coprime (u : ZMod sk.modulus).val (sk.modulus * sk.modulus) :=
    Nat.Coprime.mul_right (ZMod.val_coe_unit_coprime u) (ZMod.val_coe_unit_coprime u)
  have hw : liftRandomizer u = ZMod.unitOfCoprime _ hcop ^ sk.modulus := by
    ext
    rw [val_liftRandomizer, Units.val_pow_eq_pow_val, ZMod.coe_unitOfCoprime]
  rw [hw, ← pow_mul, ← totient_modulus_mul_self, ZMod.pow_totient]

theorem cast_pow_totient_of_encrypts {c : ℕ} {m : ℤ} (h : Encrypts sk.modulus c m) :
    (c : ZMod (sk.modulus * sk.modulus)) ^ sk.totient =
      1 + ((sk.totient * m : ℤ) : ZMod (sk.modulus * sk.modulus)) * sk.modulus := by
  obtain ⟨u, hu⟩ := h
  rw [hu, ← Units.val_pow_eq_pow_val, encUnit, mul_pow, liftRandomizer_pow_totient, mul_one,
    ← zpow_natCast, ← onePlus_mul, val_onePlus]

theorem decrypt_of_encrypts {c : ℕ} {m : ℤ} (h : Encrypts sk.modulus c m) :
    sk.decrypt c = (m : ZMod sk.modulus).val := by
  have hN := sk.one_lt_modulus
  set t := ((sk.totient * m : ℤ) : ZMod sk.modulus).val with ht
  have htN : t < sk.modulus := ZMod.val_lt _
  have hcast : (c : ZMod (sk.modulus * sk.modulus)) ^ sk.totient = ((1 + t * sk.modulus : ℕ) : ZMod _) := by
    rw [sk.cast_pow_totient_of_encrypts h, intCast_mul_modulus, Nat.cast_add, Nat.cast_one,
      Nat.cast_mul]
  have hlt : 1 + t * sk.modulus < sk.modulus * sk.modulus := by nlinarith
  have hval : ((c : ZMod (sk.modulus * sk.modulus)) ^ sk.totient).val = 1 + t * sk.modulus := by
    rw [hcast, ZMod.val_natCast_of_lt hlt]
  unfold decrypt
  rw [hval, Nat.add_sub_cancel_left, Nat.mul_div_cancel _ (by omega), ht, ← ZMod.val_mul]
  congr 1
  rw [Int.cast_mul, Int.cast_natCast, mul_comm, ← mul_assoc, mul_comm sk.mu, totient_mul_mu, one_mul]

theorem decryptSigned_of_encrypts {c : ℕ} {m : ℤ} (h : Encrypts sk.modulus c m)
    (hlo : -(sk.modulus : ℤ) < 2 * m) (hhi : 2 * m ≤ sk.modulus) : sk.decryptSigned c = m := by
  have hN := sk.one_lt_modulus
  have hval : ((sk.decrypt c : ℕ) : ℤ) = m % sk.modulus := by
    rw [sk.decrypt_of_encrypts h, ZMod.val_intCast]
  have hmod : m % sk.modulus = if 0 ≤ m then m else m + sk.modulus := by
    split
    · exact Int.emod_eq_of_lt ‹_› (by omega)
    · rw [← Int.add_emod_self]
      exact Int.emod_eq_of_lt (by omega) (by omega)
  unfold decryptSigned
  rw [hmod] at hval
  split <;> split at hval <;> omega

theorem decryptSigned_modEq {c : ℕ} {m : ℤ} (h : Encrypts sk.modulus c m) :
    sk.decryptSigned c ≡ m [ZMOD sk.modulus] := by
  have hval : ((sk.decrypt c : ℕ) : ℤ) ≡ m [ZMOD sk.modulus] := by
    rw [sk.decrypt_of_encrypts h, ZMod.val_intCast]
    exact Int.mod_modEq m _
  unfold decryptSigned
  split
  · exact (Int.ModEq.sub_right _ hval).trans (by simp [Int.ModEq])
  · exact hval

theorem modEq_of_encrypts {c : ℕ} {a b : ℤ} (ha : Encrypts sk.modulus c a)
    (hb : Encrypts sk.modulus c b) : a ≡ b [ZMOD sk.modulus] :=
  (sk.decryptSigned_modEq ha).symm.trans (sk.decryptSigned_modEq hb)

theorem cast_modulus_of_encUnit {c : ℕ} {m : ℤ} {u : (ZMod sk.modulus)ˣ}
    (hu : (c : ZMod (sk.modulus * sk.modulus)) = encUnit m u) :
    (c : ZMod sk.modulus) = (u : ZMod sk.modulus) ^ sk.modulus := by
  have := congrArg (ZMod.castHom (Dvd.intro _ rfl) (ZMod sk.modulus)) hu
  rw [map_natCast] at this
  rw [this, encUnit, Units.val_mul, val_onePlus, val_liftRandomizer, map_mul, map_pow, map_add,
    map_one, map_mul, map_intCast, map_natCast, map_natCast, ZMod.natCast_self, mul_zero, add_zero,
    one_mul, ZMod.natCast_zmod_val]

theorem deriveRandomizer_of_encUnit {c : ℕ} {m : ℤ} {u : (ZMod sk.modulus)ˣ}
    (hu : (c : ZMod (sk.modulus * sk.modulus)) = encUnit m u) :
    sk.deriveRandomizer c = (u : ZMod sk.modulus).val := by
  have hφ : u ^ sk.totient = 1 := by rw [totient_eq]; exact ZMod.pow_totient u
  have hexp : sk.modulus * sk.invModulus.val % sk.totient = 1 := by
    have h1 : ((sk.modulus * sk.invModulus.val : ℕ) : ZMod sk.totient) = 1 := by
      rw [Nat.cast_mul, ZMod.natCast_zmod_val]
      exact ZMod.coe_mul_inv_eq_one _ sk.coprime_modulus_totient
    have h2 : 1 < sk.totient := by
      have := sk.five_le_p
      have := sk.five_le_q
      calc 1 < 4 * 4 := by norm_num
        _ ≤ sk.totient := Nat.mul_le_mul (by omega) (by omega)
    rw [← ZMod.val_natCast, h1, ZMod.val_one_eq_one_mod, Nat.mod_eq_of_lt h2]
  rw [deriveRandomizer, sk.cast_modulus_of_encUnit hu, ← pow_mul, ← Units.val_pow_eq_pow_val,
    pow_eq_pow_mod _ hφ, hexp, pow_one]

theorem eq_newWithRandomizer_of_encrypts {c : ℕ} {m : ℤ} (h : Encrypts sk.modulus c m) :
    (c : ZMod (sk.modulus * sk.modulus)) =
      Ciphertext.newWithRandomizer sk.modulus (sk.decryptSigned c) (sk.deriveRandomizer c) := by
  obtain ⟨u, hu⟩ := h
  rw [Ciphertext.cast_newWithRandomizer_of_unit _ (u := u)
    (by rw [sk.deriveRandomizer_of_encUnit hu, ZMod.natCast_zmod_val]), hu,
    encUnit_congr (sk.decryptSigned_modEq ⟨u, hu⟩).symm]

theorem liftRandomizer_injective :
    Function.Injective (liftRandomizer : (ZMod sk.modulus)ˣ →* (ZMod (sk.modulus * sk.modulus))ˣ) := by
  intro u v h
  have hcast (w : (ZMod sk.modulus)ˣ) : ZMod.castHom (Dvd.intro _ rfl) (ZMod sk.modulus)
      (liftRandomizer w : ZMod (sk.modulus * sk.modulus)) =
        ((w ^ sk.modulus : (ZMod sk.modulus)ˣ) : ZMod sk.modulus) := by
    rw [val_liftRandomizer, map_pow, map_natCast, ZMod.natCast_zmod_val, Units.val_pow_eq_pow_val]
  have hN : (u * v⁻¹) ^ sk.modulus = 1 := by
    rw [mul_pow, inv_pow, mul_inv_eq_one]
    exact Units.ext (by rw [← hcast, ← hcast, h])
  have hφ : (u * v⁻¹) ^ sk.totient = 1 := by rw [totient_eq]; exact ZMod.pow_totient _
  have h1 := pow_gcd_eq_one _ hN hφ
  rwa [sk.coprime_modulus_totient.gcd_eq_one, pow_one, mul_inv_eq_one] at h1

theorem encUnit_inj {m : ℤ} {u v : (ZMod sk.modulus)ˣ} : encUnit m u = encUnit m v ↔ u = v := by
  rw [encUnit, encUnit, mul_right_inj]
  exact sk.liftRandomizer_injective.eq_iff

theorem two_lt_primeBits (sk : SecretKey k) : 2 < k := by
  have h := sk.p_lt
  have := sk.five_le_p
  exact (Nat.pow_lt_pow_iff_right (by norm_num)).1 (by omega : 2 ^ 2 < 2 ^ k)

theorem two_mul_two_pow_le_modulus : 2 * 2 ^ (2 * k - 3) ≤ sk.modulus := by
  have hk := sk.two_lt_primeBits
  calc 2 * 2 ^ (2 * k - 3) = 2 ^ (k - 1) * 2 ^ (k - 1) := by
        rw [← pow_succ', ← pow_add]
        congr 1
        omega
    _ ≤ sk.modulus := Nat.mul_le_mul sk.p_ge sk.q_ge

end SecretKey

def SecretKey.small : SecretKey 8 :=
  ⟨167, 179, by norm_num, by norm_num, by norm_num, by norm_num, by decide, by norm_num, by norm_num,
    by norm_num, by norm_num⟩

end Synedrion.Paillier
