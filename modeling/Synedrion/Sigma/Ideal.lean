import Synedrion.Params
import Synedrion.Paillier.Encryption

/-! The sigma proofs not in the sources, modelled from the spec by their witnesses. -/

namespace Synedrion.Ideal

open Synedrion.Paillier Synedrion.Paillier.Ciphertext

variable (P : SchemeParams) {Pt : Type} [AddCommGroup Pt] [Module (ZMod P.curveOrder) Pt]
  [DecidableEq Pt]

structure EncProof where
  k : ℤ
  rho : ℕ

def EncProof.verify (proof : EncProof) (pk capK : ℕ) : Bool :=
  decide (proof.k.natAbs ≤ 2 ^ (P.lBound + P.epsBound)) && Nat.Coprime proof.rho pk &&
    (capK : ZMod (pk * pk)) == newWithRandomizer pk proof.k proof.rho

structure AffGProof where
  x : ℤ
  y : ℤ
  rho : ℕ
  rhoY : ℕ

def AffGProof.verify (gen : Pt) (proof : AffGProof) (pk0 pk1 capC capD capY : ℕ) (capX : Pt) :
    Bool :=
  decide (proof.x.natAbs ≤ 2 ^ (P.lBound + P.epsBound)) &&
    decide (proof.y.natAbs ≤ 2 ^ (P.lpBound + P.epsBound)) &&
    Nat.Coprime proof.rho pk0 && Nat.Coprime proof.rhoY pk1 &&
    (capD : ZMod (pk0 * pk0)) ==
      homomorphicAdd pk0 (homomorphicMul pk0 capC proof.x) (newWithRandomizer pk0 (-proof.y) proof.rho) &&
    (capY : ZMod (pk1 * pk1)) == newWithRandomizer pk1 proof.y proof.rhoY &&
    capX == (proof.x : ZMod P.curveOrder) • gen

structure LogStarProof where
  x : ℤ
  rho : ℕ

def LogStarProof.verify (proof : LogStarProof) (pk capC : ℕ) (g capX : Pt) : Bool :=
  decide (proof.x.natAbs ≤ 2 ^ (P.lBound + P.epsBound)) && Nat.Coprime proof.rho pk &&
    (capC : ZMod (pk * pk)) == newWithRandomizer pk proof.x proof.rho &&
    capX == (proof.x : ZMod P.curveOrder) • g

structure MulProof where
  x : ℤ
  rhoX : ℕ
  rho : ℕ

def MulProof.verify (proof : MulProof) (pk capX capY capC : ℕ) : Bool :=
  Nat.Coprime proof.rhoX pk && Nat.Coprime proof.rho pk &&
    (capX : ZMod (pk * pk)) == newWithRandomizer pk proof.x proof.rhoX &&
    (capC : ZMod (pk * pk)) == mulRandomizer pk (homomorphicMul pk capY proof.x) proof.rho

structure MulStarProof where
  x : ℤ
  rho : ℕ

structure DecProof where
  y : ℤ
  rho : ℕ

def DecProof.verify (proof : DecProof) (pk : ℕ) (x : ZMod P.curveOrder) (capC : ℕ) : Bool :=
  Nat.Coprime proof.rho pk && (capC : ZMod (pk * pk)) == newWithRandomizer pk proof.y proof.rho &&
    (proof.y : ZMod P.curveOrder) == x

section Lemmas

variable {P}

omit [AddCommGroup Pt] [Module (ZMod P.curveOrder) Pt] [DecidableEq Pt] in
theorem EncProof.verify_honest {pk : ℕ} {k : ℤ} {rho : ℕ}
    (hk : k.natAbs ≤ 2 ^ (P.lBound + P.epsBound)) (hrho : Nat.Coprime rho pk) :
    (⟨k, rho⟩ : EncProof).verify P pk (newWithRandomizer pk k rho) = true := by
  simp only [EncProof.verify, Bool.and_eq_true, decide_eq_true_eq, beq_self_eq_true, and_true]
  exact ⟨hk, hrho⟩

omit [AddCommGroup Pt] [Module (ZMod P.curveOrder) Pt] [DecidableEq Pt] in
theorem EncProof.encrypts_of_verify {pk capK : ℕ} [NeZero pk] {proof : EncProof}
    (h : proof.verify P pk capK = true) : Encrypts pk capK proof.k := by
  simp only [EncProof.verify, Bool.and_eq_true, decide_eq_true_eq, beq_iff_eq] at h
  obtain ⟨⟨-, hrho⟩, hK⟩ := h
  rw [Encrypts, hK]
  exact Encrypts.newWithRandomizer _ ((ZMod.isUnit_iff_coprime _ _).2 hrho)

theorem AffGProof.verify_honest (gen : Pt) {pk0 pk1 capC : ℕ} {x y : ℤ} {rho rhoY : ℕ} {capX : Pt}
    (hx : x.natAbs ≤ 2 ^ (P.lBound + P.epsBound)) (hy : y.natAbs ≤ 2 ^ (P.lpBound + P.epsBound))
    (hrho : Nat.Coprime rho pk0) (hrhoY : Nat.Coprime rhoY pk1)
    (hX : capX = (x : ZMod P.curveOrder) • gen) :
    (⟨x, y, rho, rhoY⟩ : AffGProof).verify P gen pk0 pk1 capC
      (homomorphicAdd pk0 (homomorphicMul pk0 capC x) (newWithRandomizer pk0 (-y) rho))
      (newWithRandomizer pk1 y rhoY) capX = true := by
  simp only [AffGProof.verify, Bool.and_eq_true, decide_eq_true_eq, beq_self_eq_true, and_true,
    hX]
  exact ⟨⟨⟨hx, hy⟩, hrho⟩, hrhoY⟩

theorem AffGProof.encrypts_of_verify (gen : Pt) {pk0 pk1 capC capD capY : ℕ} [NeZero pk0]
    {capX : Pt} {proof : AffGProof} {c : ℤ}
    (h : proof.verify P gen pk0 pk1 capC capD capY capX = true) (hC : Encrypts pk0 capC c) :
    Encrypts pk0 capD (proof.x * c + -proof.y) := by
  simp only [AffGProof.verify, Bool.and_eq_true, decide_eq_true_eq, beq_iff_eq] at h
  obtain ⟨⟨⟨⟨⟨-, hrho⟩, -⟩, hD⟩, -⟩, -⟩ := h
  rw [Encrypts, hD]
  exact (hC.homomorphicMul _).homomorphicAdd
    (Encrypts.newWithRandomizer _ ((ZMod.isUnit_iff_coprime _ _).2 hrho))

theorem LogStarProof.verify_honest {pk : ℕ} {x : ℤ} {rho : ℕ} (g : Pt) {capX : Pt}
    (hx : x.natAbs ≤ 2 ^ (P.lBound + P.epsBound)) (hrho : Nat.Coprime rho pk)
    (hX : capX = (x : ZMod P.curveOrder) • g) :
    (⟨x, rho⟩ : LogStarProof).verify P pk (newWithRandomizer pk x rho) g capX = true := by
  simp only [LogStarProof.verify, Bool.and_eq_true, decide_eq_true_eq, beq_self_eq_true,
    and_true, hX]
  exact ⟨hx, hrho⟩

omit [AddCommGroup Pt] [Module (ZMod P.curveOrder) Pt] [DecidableEq Pt] in
theorem MulProof.verify_eq_true_iff {pk capY capC : ℕ} {x : ℤ} {rhoX rho : ℕ}
    (hrhoX : Nat.Coprime rhoX pk) (hrho : Nat.Coprime rho pk) :
    (⟨x, rhoX, rho⟩ : MulProof).verify pk (newWithRandomizer pk x rhoX) capY capC = true ↔
      (capC : ZMod (pk * pk)) = mulRandomizer pk (homomorphicMul pk capY x) rho := by
  simp only [MulProof.verify, Bool.and_eq_true, decide_eq_true_eq, beq_self_eq_true, true_and,
    beq_iff_eq]
  exact and_iff_right ⟨⟨hrhoX, hrho⟩, trivial⟩

omit [AddCommGroup Pt] [Module (ZMod P.curveOrder) Pt] [DecidableEq Pt] in
theorem DecProof.verify_honest {pk : ℕ} {y : ℤ} {rho : ℕ} {capC : ℕ}
    (hrho : Nat.Coprime rho pk) (hC : (capC : ZMod (pk * pk)) = newWithRandomizer pk y rho) :
    (⟨y, rho⟩ : DecProof).verify P pk (y : ZMod P.curveOrder) capC = true := by
  simp only [DecProof.verify, Bool.and_eq_true, decide_eq_true_eq, beq_iff_eq, and_true]
  exact ⟨hrho, hC⟩

omit [AddCommGroup Pt] [Module (ZMod P.curveOrder) Pt] [DecidableEq Pt] in
theorem DecProof.encrypts_of_verify {pk capC : ℕ} [NeZero pk] {x : ZMod P.curveOrder}
    {proof : DecProof} (h : proof.verify P pk x capC = true) : Encrypts pk capC proof.y := by
  simp only [DecProof.verify, Bool.and_eq_true, decide_eq_true_eq, beq_iff_eq] at h
  obtain ⟨⟨hrho, hC⟩, -⟩ := h
  rw [Encrypts, hC]
  exact Encrypts.newWithRandomizer _ ((ZMod.isUnit_iff_coprime _ _).2 hrho)

end Lemmas

end Synedrion.Ideal
