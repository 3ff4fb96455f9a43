import Synedrion.Params
import Synedrion.Paillier.RingPedersen
import Mathlib.Algebra.Lie.OfAssociative

/-! `LogStarProof` of `cggmp21/sigma/log_star.rs` (`Π^log*`), over exact integers. -/

namespace Synedrion.Sigma

open Synedrion.Paillier Synedrion.Tools.Hashing

def logStarTag : List UInt8 := [80, 95, 108, 111, 103, 42]

structure LogStarProof (Pt : Type) where
  e : ℤ
  capS : ℕ
  capA : ℕ
  capY : Pt
  capD : ℕ
  z1 : ℤ
  z2 : ℕ
  z3 : ℤ

namespace LogStarProof

variable {Pt : Type} [AddCommGroup Pt] (P : SchemeParams) [Module (ZMod P.curveOrder) Pt]
  [DecidableEq Pt] (xof : Xof Pt)

def new (x : ℤ) (rho pk0 capC : ℕ) (g capX : Pt) (setup : RPParams) (aux : Absorbed Pt)
    (alpha mu : ℤ) (r : ℕ) (gamma : ℤ) : Option (LogStarProof Pt) :=
  if x.natAbs ≤ 2 ^ P.lBound then
    let capS := (setup.commit x mu).val
    let capA := Ciphertext.newWithRandomizer pk0 alpha r
    let capY := (alpha : ZMod P.curveOrder) • g
    let capD := (setup.commit alpha gamma).val
    let e := xof.challenge logStarTag
      [.uint capS, .uint capA, .point capY, .uint capD,
        .uint pk0, .uint capC, .point g, .point capX, setup.toWire, aux]
    some ⟨e, capS, capA, capY, capD, alpha + x * e, toMasked pk0 rho r e, gamma + mu * e⟩
  else none

def challenge (proof : LogStarProof Pt) (pk0 capC : ℕ) (g capX : Pt) (setup : RPParams)
    (aux : Absorbed Pt) : ℤ :=
  xof.challenge logStarTag
    [.uint proof.capS, .uint proof.capA, .point proof.capY, .uint proof.capD,
      .uint pk0, .uint capC, .point g, .point capX, setup.toWire, aux]

def verify (proof : LogStarProof Pt) (pk0 capC : ℕ) (g capX : Pt) (setup : RPParams)
    (aux : Absorbed Pt) : Bool :=
  let e := proof.challenge xof pk0 capC g capX setup aux
  e == proof.e &&
    decide (proof.z1.natAbs ≤ 2 ^ (P.lBound + P.epsBound)) &&
    Ciphertext.newWithRandomizer pk0 proof.z1 proof.z2 ==
      Ciphertext.homomorphicAdd pk0 proof.capA (Ciphertext.homomorphicMul pk0 capC e) &&
    (proof.z1 : ZMod P.curveOrder) • g == proof.capY + (e : ZMod P.curveOrder) • capX &&
    setup.commit proof.z1 proof.z3 ==
      (proof.capD : ZMod setup.modulus) * powSigned (proof.capS : ZMod setup.modulus) e

theorem verify_eq_true_iff {proof : LogStarProof Pt} {pk0 capC : ℕ} {g capX : Pt}
    {setup : RPParams} {aux : Absorbed Pt} (he : proof.challenge xof pk0 capC g capX setup aux = proof.e)
    (henc : Ciphertext.newWithRandomizer pk0 proof.z1 proof.z2 =
      Ciphertext.homomorphicAdd pk0 proof.capA (Ciphertext.homomorphicMul pk0 capC proof.e))
    (hpt : (proof.z1 : ZMod P.curveOrder) • g = proof.capY + (proof.e : ZMod P.curveOrder) • capX)
    (hcom : setup.commit proof.z1 proof.z3 =
      (proof.capD : ZMod setup.modulus) * powSigned (proof.capS : ZMod setup.modulus) proof.e) :
    proof.verify P xof pk0 capC g capX setup aux = true ↔
      proof.z1.natAbs ≤ 2 ^ (P.lBound + P.epsBound) := by
  simp only [verify, he, henc, hpt, hcom, beq_self_eq_true, Bool.true_and, Bool.and_true,
    decide_eq_true_eq]

omit [DecidableEq Pt] in
variable {P} in
theorem smul_response (g : Pt) (alpha x e : ℤ) :
    ((alpha + x * e : ℤ) : ZMod P.curveOrder) • g =
      (alpha : ZMod P.curveOrder) • g + (e : ZMod P.curveOrder) • ((x : ZMod P.curveOrder) • g) := by
  rw [Int.cast_add, Int.cast_mul, add_smul, smul_smul, mul_comm]

/-- Completeness of `Π^log*`: a proof verifies exactly when `z1` passes the range check. -/
theorem verify_new_iff_range {pk0 : ℕ} [NeZero pk0] (setup : RPParams) (aux : Absorbed Pt)
    (g : Pt) {x : ℤ} (hx : x.natAbs ≤ 2 ^ P.lBound) (rho : (ZMod pk0)ˣ) {capC : ℕ} {capX : Pt}
    (hC : capC = Ciphertext.newWithRandomizer pk0 x (rho : ZMod pk0).val)
    (hX : capX = (x : ZMod P.curveOrder) • g) (alpha mu : ℤ) (r : (ZMod pk0)ˣ) (gamma : ℤ) :
    ∃ proof, new P xof x (rho : ZMod pk0).val pk0 capC g capX setup aux alpha mu
        (r : ZMod pk0).val gamma = some proof ∧
      proof.challenge xof pk0 capC g capX setup aux = proof.e ∧
      proof.z1 = alpha + x * proof.e ∧
      Ciphertext.newWithRandomizer pk0 proof.z1 proof.z2 =
        Ciphertext.homomorphicAdd pk0 proof.capA (Ciphertext.homomorphicMul pk0 capC proof.e) ∧
      (proof.z1 : ZMod P.curveOrder) • g = proof.capY + (proof.e : ZMod P.curveOrder) • capX ∧
      setup.commit proof.z1 proof.z3 =
        (proof.capD : ZMod setup.modulus) * powSigned (proof.capS : ZMod setup.modulus) proof.e ∧
      (proof.verify P xof pk0 capC g capX setup aux = true ↔
        proof.z1.natAbs ≤ 2 ^ (P.lBound + P.epsBound)) := by
  subst hC hX
  have henc (e : ℤ) := Ciphertext.newWithRandomizer_response x alpha e rho r
  have hpt (e : ℤ) := smul_response (P := P) g alpha x e
  have hcom (e : ℤ) : setup.commit (alpha + x * e) (gamma + mu * e) =
      ((setup.commit alpha gamma).val : ZMod setup.modulus) *
        powSigned ((setup.commit x mu).val : ZMod setup.modulus) e := by
    rw [ZMod.natCast_zmod_val, ZMod.natCast_zmod_val]
    exact setup.commit_add_mul alpha gamma x mu e
  exact ⟨_, if_pos hx, rfl, rfl, henc _, hpt _, hcom _,
    verify_eq_true_iff P xof rfl (henc _) (hpt _) (hcom _)⟩

theorem verify_new_iff_range_small :
    ∃ proof, new SchemeParams.small (Xof.constant 1 false) 1 2 15 (Ciphertext.newWithRandomizer 15 1 2)
        (1 : ZMod SchemeParams.small.curveOrder)
        (((1 : ℤ) : ZMod SchemeParams.small.curveOrder) • 1) RPParams.small (.bytes []) 1 1 2 1 =
          some proof ∧
      proof.verify SchemeParams.small (Xof.constant 1 false) 15 (Ciphertext.newWithRandomizer 15 1 2)
        1 (((1 : ℤ) : ZMod SchemeParams.small.curveOrder) • 1) RPParams.small (.bytes []) = true := by
  obtain ⟨proof, hnew, he, hz, -, -, -, hv⟩ :=
    verify_new_iff_range SchemeParams.small (Xof.constant 1 false)
    RPParams.small (.bytes []) (1 : ZMod SchemeParams.small.curveOrder) (x := 1) (by decide)
    (ZMod.unitOfCoprime 2 (by decide) : (ZMod 15)ˣ) rfl rfl 1 1 (ZMod.unitOfCoprime 2 (by decide)) 1
  refine ⟨proof, hnew, hv.2 ?_⟩
  rw [hz, ← he]
  show ((1 : ℤ) + 1 * 1).natAbs ≤ 2 ^ (3 + 6)
  decide

end LogStarProof

end Synedrion.Sigma
