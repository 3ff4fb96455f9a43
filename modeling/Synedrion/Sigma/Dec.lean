import Synedrion.Params
import Synedrion.Paillier.RingPedersen
import Synedrion.Uint.Pow
import Mathlib.Algebra.Lie.OfAssociative

/-! `DecProof` of `cggmp21/sigma/dec_new.rs` (`Π^dec`), over exact integers. -/

namespace Synedrion.Sigma

open Synedrion.Paillier Synedrion.Paillier.Ciphertext Synedrion.Tools.Hashing

def decTag : List UInt8 := [80, 95, 100, 101, 99]

structure DecPublicInputs (Pt : Type) where
  pk0 : ℕ
  capK : ℕ
  capX : Pt
  capD : ℕ
  capS : Pt

structure DecProofEphemeral where
  alpha : ℤ
  beta : ℤ
  r : ℕ

structure DecProofCommitment (Pt : Type) where
  capA : ℕ
  capB : Pt
  capC : Pt

structure DecProofElement where
  z : ℤ
  w : ℤ
  nu : ℕ

structure DecProof (Pt : Type) where
  e : List Bool
  commitments : List (DecProofCommitment Pt)
  elements : List DecProofElement

def DecProofCommitment.toAbsorbed {Pt : Type} (c : DecProofCommitment Pt) : Absorbed Pt :=
  .seq [.uint c.capA, .point c.capB, .point c.capC]

namespace DecProof

variable {Pt : Type} [AddCommGroup Pt] (P : SchemeParams) [Module (ZMod P.curveOrder) Pt]
  [DecidableEq Pt] (gen : Pt) (xof : Xof Pt)

def commitment (pub : DecPublicInputs Pt) (ep : DecProofEphemeral) : DecProofCommitment Pt :=
  ⟨homomorphicAdd pub.pk0 (homomorphicMul pub.pk0 pub.capK (-ep.alpha))
      (newWithRandomizer pub.pk0 ep.beta ep.r),
    (ep.beta : ZMod P.curveOrder) • gen, (ep.alpha : ZMod P.curveOrder) • gen⟩

def element (x y : ℤ) (rho pk0 : ℕ) (ep : DecProofEphemeral) (eBit : Bool) : DecProofElement :=
  ⟨if eBit then ep.alpha + x else ep.alpha, if eBit then ep.beta + y else ep.beta,
    toMasked pk0 rho ep.r (if eBit then 1 else 0)⟩

def new (x y : ℤ) (rho : ℕ) (pub : DecPublicInputs Pt) (setup : RPParams) (aux : Absorbed Pt)
    (eph : ℕ → DecProofEphemeral) : Option (DecProof Pt) :=
  if x.natAbs ≤ 2 ^ P.lBound ∧ y.natAbs ≤ 2 ^ P.lpBound then
    let ephemerals := (List.range P.securityParameter).map eph
    let commitments := ephemerals.map (commitment P gen pub)
    let e := xof.challengeBits decTag
      [.seq (commitments.map DecProofCommitment.toAbsorbed), .uint pub.pk0, .uint pub.capK,
        .point pub.capX, .uint pub.capD, .point pub.capS, setup.toWire, aux] P.securityParameter
    some ⟨e, commitments, (ephemerals.zip e).map fun (ep, b) => element x y rho pub.pk0 ep b⟩
  else none

def challenge (proof : DecProof Pt) (pub : DecPublicInputs Pt) (setup : RPParams)
    (aux : Absorbed Pt) : List Bool :=
  xof.challengeBits decTag
    [.seq (proof.commitments.map DecProofCommitment.toAbsorbed), .uint pub.pk0, .uint pub.capK,
      .point pub.capX, .uint pub.capD, .point pub.capS, setup.toWire, aux] P.securityParameter

def verifyElement (pub : DecPublicInputs Pt) (eBit : Bool) (c : DecProofCommitment Pt)
    (el : DecProofElement) : Bool :=
  homomorphicAdd pub.pk0 (newWithRandomizer pub.pk0 el.w el.nu)
      (homomorphicMul pub.pk0 pub.capK (-el.z)) ==
    (if eBit then homomorphicAdd pub.pk0 (toPrecomputed pub.pk0 c.capA) pub.capD
      else toPrecomputed pub.pk0 c.capA) &&
  (el.z : ZMod P.curveOrder) • gen == (if eBit then c.capC + pub.capX else c.capC) &&
  (el.w : ZMod P.curveOrder) • gen == (if eBit then c.capB + pub.capS else c.capB)

def verify (proof : DecProof Pt) (pub : DecPublicInputs Pt) (setup : RPParams)
    (aux : Absorbed Pt) : Bool :=
  let e := proof.challenge P xof pub setup aux
  e == proof.e && e.length == proof.commitments.length && e.length == proof.elements.length &&
    ((e.zip proof.commitments).zip proof.elements).all fun t => verifyElement P gen pub t.1.1 t.1.2 t.2

def checkElement (pub : DecPublicInputs Pt) (eBit : Bool) (c : DecProofCommitment Pt)
    (el : DecProofElement) : Option Bool :=
  (Uint.invert ((pub.capK : ZMod (pub.pk0 * pub.pk0)) ^ el.z.natAbs)).map fun _ =>
    verifyElement P gen pub eBit c el

theorem checkElement_eq_some_true_iff {pub : DecPublicInputs Pt} {eBit : Bool}
    {c : DecProofCommitment Pt} {el : DecProofElement} :
    checkElement P gen pub eBit c el = some true ↔
      IsUnit ((pub.capK : ZMod (pub.pk0 * pub.pk0)) ^ el.z.natAbs) ∧
        verifyElement P gen pub eBit c el = true := by
  rw [checkElement, Option.map_eq_some']
  exact ⟨fun ⟨_, hinv, hv⟩ => ⟨(Uint.invert_eq_some_iff.1 hinv).1, hv⟩,
    fun ⟨hu, hv⟩ => ⟨_, Uint.invert_eq_some_iff.2 ⟨hu, rfl⟩, hv⟩⟩

omit [DecidableEq Pt] in
theorem mem_zip_commitment_element {pub : DecPublicInputs Pt} {x y : ℤ} {rho : ℕ}
    {eps : List DecProofEphemeral} {bits : List Bool}
    {t : (Bool × DecProofCommitment Pt) × DecProofElement}
    (ht : t ∈ (bits.zip (eps.map (commitment P gen pub))).zip
      ((eps.zip bits).map fun (ep, b) => element x y rho pub.pk0 ep b)) :
    ∃ ep ∈ eps, t = ((t.1.1, commitment P gen pub ep), element x y rho pub.pk0 ep t.1.1) := by
  induction eps generalizing bits with
  | nil => simp at ht
  | cons ep eps ih =>
    cases bits with
    | nil => simp at ht
    | cons b bits =>
      simp only [List.map_cons, List.zip_cons_cons, List.mem_cons] at ht
      rcases ht with rfl | ht
      · exact ⟨ep, List.mem_cons_self _ _, rfl⟩
      · obtain ⟨ep', hmem, heq⟩ := ih ht
        exact ⟨ep', List.mem_cons_of_mem _ hmem, heq⟩

theorem verify_eq_true {proof : DecProof Pt} {pub : DecPublicInputs Pt} {setup : RPParams}
    {aux : Absorbed Pt} (he : proof.challenge P xof pub setup aux = proof.e)
    (hc : proof.e.length = proof.commitments.length) (hel : proof.e.length = proof.elements.length)
    (hall : ∀ t ∈ (proof.e.zip proof.commitments).zip proof.elements,
      verifyElement P gen pub t.1.1 t.1.2 t.2 = true) :
    proof.verify P gen xof pub setup aux = true := by
  simp only [verify, he, Bool.and_eq_true, beq_iff_eq, List.all_eq_true]
  exact ⟨⟨⟨trivial, hc⟩, hel⟩, hall⟩

section Completeness

variable {P gen} {pub : DecPublicInputs Pt} [NeZero pub.pk0] {x y : ℤ} {rho : (ZMod pub.pk0)ˣ}

omit [DecidableEq Pt] in
theorem cipher_element (hK : IsUnit (pub.capK : ZMod (pub.pk0 * pub.pk0)))
    (hD : newWithRandomizer pub.pk0 y (rho : ZMod pub.pk0).val =
      homomorphicAdd pub.pk0 (homomorphicMul pub.pk0 pub.capK x) pub.capD)
    (alpha beta : ℤ) (r : (ZMod pub.pk0)ˣ) (b : Bool) :
    homomorphicAdd pub.pk0
        (newWithRandomizer pub.pk0 (if b then beta + y else beta)
          (toMasked pub.pk0 (rho : ZMod pub.pk0).val (r : ZMod pub.pk0).val (if b then 1 else 0)))
        (homomorphicMul pub.pk0 pub.capK (-(if b then alpha + x else alpha))) =
      if b then homomorphicAdd pub.pk0 (toPrecomputed pub.pk0
          (commitment P gen pub ⟨alpha, beta, (r : ZMod pub.pk0).val⟩).capA) pub.capD
      else toPrecomputed pub.pk0 (commitment P gen pub ⟨alpha, beta, (r : ZMod pub.pk0).val⟩).capA := by
  obtain ⟨u, hu⟩ := hK
  have hD' : ((encUnit y rho : (ZMod (pub.pk0 * pub.pk0))ˣ) : ZMod (pub.pk0 * pub.pk0)) =
      ((u ^ x : (ZMod (pub.pk0 * pub.pk0))ˣ) : ZMod (pub.pk0 * pub.pk0)) * pub.capD := by
    have := congrArg (Nat.cast : ℕ → ZMod (pub.pk0 * pub.pk0)) hD
    rwa [cast_newWithRandomizer_of_unit _ (ZMod.natCast_zmod_val _), cast_homomorphicAdd,
      cast_homomorphicMul, ← hu, powSigned_units] at this
  have hinv : ((u ^ x : (ZMod (pub.pk0 * pub.pk0))ˣ) : ZMod (pub.pk0 * pub.pk0)) *
      ((u ^ (-x) : (ZMod (pub.pk0 * pub.pk0))ˣ) : ZMod (pub.pk0 * pub.pk0)) = 1 := by
    rw [← Units.val_mul, ← zpow_add, add_neg_cancel, zpow_zero, Units.val_one]
  rw [commitment, toPrecomputed_of_lt (homomorphicAdd_lt _ _)]
  cases b <;> refine eq_of_cast_eq (homomorphicAdd_lt _ _) (homomorphicAdd_lt _ _) ?_
  case false =>
    simp only [Bool.false_eq_true, if_false, cast_homomorphicAdd, cast_homomorphicMul,
      cast_newWithRandomizer_of_unit _ (cast_toMasked rho r 0),
      cast_newWithRandomizer_of_unit _ (ZMod.natCast_zmod_val _), zpow_zero, mul_one]
    exact mul_comm _ _
  case true =>
    simp only [if_true, cast_homomorphicAdd, cast_homomorphicMul,
      cast_newWithRandomizer_of_unit _ (cast_toMasked rho r 1),
      cast_newWithRandomizer_of_unit _ (ZMod.natCast_zmod_val _), zpow_one, ← hu, powSigned_units,
      ← encUnit_mul, Units.val_mul, hD', neg_add, zpow_add]
    linear_combination
      ((encUnit beta r : (ZMod (pub.pk0 * pub.pk0))ˣ) * pub.capD *
        ((u ^ (-alpha) : (ZMod (pub.pk0 * pub.pk0))ˣ) : ZMod (pub.pk0 * pub.pk0))) * hinv

theorem verifyElement_honest (hK : IsUnit (pub.capK : ZMod (pub.pk0 * pub.pk0)))
    (hD : newWithRandomizer pub.pk0 y (rho : ZMod pub.pk0).val =
      homomorphicAdd pub.pk0 (homomorphicMul pub.pk0 pub.capK x) pub.capD)
    (hX : pub.capX = (x : ZMod P.curveOrder) • gen) (hS : pub.capS = (y : ZMod P.curveOrder) • gen)
    (alpha beta : ℤ) (r : (ZMod pub.pk0)ˣ) (b : Bool) :
    verifyElement P gen pub b (commitment P gen pub ⟨alpha, beta, (r : ZMod pub.pk0).val⟩)
      (element x y (rho : ZMod pub.pk0).val pub.pk0 ⟨alpha, beta, (r : ZMod pub.pk0).val⟩ b) =
        true := by
  simp only [verifyElement, Bool.and_eq_true, beq_iff_eq]
  refine ⟨⟨cipher_element hK hD alpha beta r b, ?_⟩, ?_⟩ <;>
    cases b <;> simp [element, commitment, hX, hS, add_smul]

theorem verifyElement_new (hK : IsUnit (pub.capK : ZMod (pub.pk0 * pub.pk0)))
    (hD : newWithRandomizer pub.pk0 y (rho : ZMod pub.pk0).val =
      homomorphicAdd pub.pk0 (homomorphicMul pub.pk0 pub.capK x) pub.capD)
    (hX : pub.capX = (x : ZMod P.curveOrder) • gen) (hS : pub.capS = (y : ZMod P.curveOrder) • gen)
    (alpha beta : ℕ → ℤ) (r : ℕ → (ZMod pub.pk0)ˣ) (bits : List Bool) :
    ∀ t ∈ (bits.zip (((List.range P.securityParameter).map
      fun i => (⟨alpha i, beta i, (r i : ZMod pub.pk0).val⟩ : DecProofEphemeral)).map
        (commitment P gen pub))).zip ((((List.range P.securityParameter).map
      fun i => (⟨alpha i, beta i, (r i : ZMod pub.pk0).val⟩ : DecProofEphemeral)).zip bits).map
        fun (ep, b) => element x y (rho : ZMod pub.pk0).val pub.pk0 ep b),
      verifyElement P gen pub t.1.1 t.1.2 t.2 = true := by
  intro t ht
  obtain ⟨ep, hep, heq⟩ := mem_zip_commitment_element P gen ht
  obtain ⟨i, -, rfl⟩ := List.mem_map.1 hep
  rw [heq]
  exact verifyElement_honest hK hD hX hS _ _ _ _

theorem verify_of_new (hK : IsUnit (pub.capK : ZMod (pub.pk0 * pub.pk0)))
    (hD : newWithRandomizer pub.pk0 y (rho : ZMod pub.pk0).val =
      homomorphicAdd pub.pk0 (homomorphicMul pub.pk0 pub.capK x) pub.capD)
    (hX : pub.capX = (x : ZMod P.curveOrder) • gen) (hS : pub.capS = (y : ZMod P.curveOrder) • gen)
    {setup : RPParams} {aux : Absorbed Pt} (alpha beta : ℕ → ℤ) (r : ℕ → (ZMod pub.pk0)ˣ)
    {proof : DecProof Pt}
    (h : new P gen xof x y (rho : ZMod pub.pk0).val pub setup aux
      (fun i => ⟨alpha i, beta i, (r i : ZMod pub.pk0).val⟩) = some proof) :
    proof.verify P gen xof pub setup aux = true := by
  unfold new at h
  split at h
  · cases h
    exact verify_eq_true P gen xof rfl (by simp) (by simp) (verifyElement_new hK hD hX hS _ _ _ _)
  · cases h

end Completeness

def smallInputs : DecPublicInputs (ZMod SchemeParams.small.curveOrder) :=
  ⟨15, 4, ((1 : ℤ) : ZMod SchemeParams.small.curveOrder) • 1, 122,
    ((1 : ℤ) : ZMod SchemeParams.small.curveOrder) • 1⟩

/-- Ephemerals `α = β = 521` give a proof that verifies although no response is in range. -/
theorem verify_new_unbounded_small :
    ∃ proof, new SchemeParams.small (1 : ZMod SchemeParams.small.curveOrder)
        (Xof.constant 0 true) 1 1 2 smallInputs RPParams.small (.bytes [])
        (fun _ => ⟨521, 521, 2⟩) = some proof ∧
      proof.verify SchemeParams.small 1 (Xof.constant 0 true) smallInputs RPParams.small
        (.bytes []) = true ∧
      ∀ el ∈ proof.elements,
        2 ^ (SchemeParams.small.lBound + SchemeParams.small.epsBound) + 2 ^ SchemeParams.small.lBound <
            el.z.natAbs ∧
          2 ^ (SchemeParams.small.lpBound + SchemeParams.small.epsBound) +
            2 ^ SchemeParams.small.lpBound < el.w.natAbs := by
  haveI : NeZero smallInputs.pk0 := ⟨by decide⟩
  have hD : newWithRandomizer smallInputs.pk0 1
      ((ZMod.unitOfCoprime 2 (by decide) : (ZMod smallInputs.pk0)ˣ) : ZMod smallInputs.pk0).val =
      homomorphicAdd smallInputs.pk0 (homomorphicMul smallInputs.pk0 smallInputs.capK 1)
        smallInputs.capD := by decide
  have hnew : new SchemeParams.small (1 : ZMod SchemeParams.small.curveOrder)
      (Xof.constant 0 true) 1 1 2 smallInputs RPParams.small (.bytes [])
      (fun _ => ⟨521, 521, 2⟩) = some _ := if_pos (by decide)
  refine ⟨_, hnew, verify_of_new _ ⟨ZMod.unitOfCoprime 4 (by decide), rfl⟩ hD rfl rfl
    (fun _ => 521) (fun _ => 521) (fun _ => ZMod.unitOfCoprime 2 (by decide)) hnew, ?_⟩
  decide

/-- Completeness of `Π^dec`: a proof of a true statement verifies, whatever the ephemerals. -/
theorem verify_new_eq_true (pub : DecPublicInputs Pt) [NeZero pub.pk0] (x y : ℤ)
    (rho : (ZMod pub.pk0)ˣ) (setup : RPParams) (aux : Absorbed Pt) (hx : x.natAbs ≤ 2 ^ P.lBound)
    (hy : y.natAbs ≤ 2 ^ P.lpBound) (hK : IsUnit (pub.capK : ZMod (pub.pk0 * pub.pk0)))
    (hD : newWithRandomizer pub.pk0 y (rho : ZMod pub.pk0).val =
      homomorphicAdd pub.pk0 (homomorphicMul pub.pk0 pub.capK x) pub.capD)
    (hX : pub.capX = (x : ZMod P.curveOrder) • gen) (hS : pub.capS = (y : ZMod P.curveOrder) • gen)
    (alpha beta : ℕ → ℤ) (r : ℕ → (ZMod pub.pk0)ˣ) :
    ∃ proof, new P gen xof x y (rho : ZMod pub.pk0).val pub setup aux
        (fun i => ⟨alpha i, beta i, (r i : ZMod pub.pk0).val⟩) = some proof ∧
      proof.challenge P xof pub setup aux = proof.e ∧
      proof.e.length = proof.commitments.length ∧ proof.e.length = proof.elements.length ∧
      (∀ t ∈ (proof.e.zip proof.commitments).zip proof.elements,
        verifyElement P gen pub t.1.1 t.1.2 t.2 = true) ∧
      proof.verify P gen xof pub setup aux = true := by
  exact ⟨_, if_pos ⟨hx, hy⟩, rfl, by simp, by simp, verifyElement_new hK hD hX hS alpha beta r _,
    verify_of_new xof hK hD hX hS alpha beta r (if_pos ⟨hx, hy⟩)⟩

theorem verify_new_eq_true_small :
    ∃ proof, new SchemeParams.small (1 : ZMod SchemeParams.small.curveOrder)
        (Xof.constant 0 true) 1 1 2
        ⟨15, 4, ((1 : ℤ) : ZMod SchemeParams.small.curveOrder) • 1, 122,
          ((1 : ℤ) : ZMod SchemeParams.small.curveOrder) • 1⟩ RPParams.small (.bytes [])
        (fun _ => ⟨1, 1, 2⟩) = some proof ∧
      proof.verify SchemeParams.small 1 (Xof.constant 0 true)
        ⟨15, 4, ((1 : ℤ) : ZMod SchemeParams.small.curveOrder) • 1, 122,
          ((1 : ℤ) : ZMod SchemeParams.small.curveOrder) • 1⟩ RPParams.small (.bytes []) = true := by
  haveI : NeZero 15 := ⟨by decide⟩
  obtain ⟨proof, hnew, -, -, -, -, hv⟩ := verify_new_eq_true SchemeParams.small
    (1 : ZMod SchemeParams.small.curveOrder) (Xof.constant 0 true)
    ⟨15, 4, ((1 : ℤ) : ZMod SchemeParams.small.curveOrder) • 1, 122,
      ((1 : ℤ) : ZMod SchemeParams.small.curveOrder) • 1⟩ 1 1
    (ZMod.unitOfCoprime 2 (by decide) : (ZMod 15)ˣ) RPParams.small (.bytes [])
    (by decide) (by decide) ⟨ZMod.unitOfCoprime 4 (by decide), rfl⟩ (by decide) rfl rfl
    (fun _ => 1) (fun _ => 1) (fun _ => ZMod.unitOfCoprime 2 (by decide))
  exact ⟨proof, hnew, hv⟩

section Soundness

variable {N : ℕ} [NeZero N]

theorem cipher_extract {K A D nu0 nu1 : ℕ} {z0 z1 w0 w1 : ℤ} (hnu : IsUnit (nu0 : ZMod N))
    (hK0 : IsUnit ((K : ZMod (N * N)) ^ z0.natAbs)) (hK1 : IsUnit ((K : ZMod (N * N)) ^ z1.natAbs))
    (h0 : homomorphicAdd N (newWithRandomizer N w0 nu0) (homomorphicMul N K (-z0)) =
      toPrecomputed N A)
    (h1 : homomorphicAdd N (newWithRandomizer N w1 nu1) (homomorphicMul N K (-z1)) =
      homomorphicAdd N (toPrecomputed N A) D) :
    newWithRandomizer N (w1 - w0) ((nu1 : ZMod N) * (nu0 : ZMod N)⁻¹).val =
      homomorphicAdd N (homomorphicMul N K (z1 - z0)) D := by
  -- the powers of `K` multiply as the exponents add: `K` is a unit, or both exponents are `0`
  have hsig : powSigned (K : ZMod (N * N)) (z1 - z0) * powSigned (K : ZMod (N * N)) (-z1) =
      powSigned (K : ZMod (N * N)) (-z0) := by
    by_cases hK : IsUnit (K : ZMod (N * N))
    · obtain ⟨u, hu⟩ := hK
      rw [← hu, powSigned_units, powSigned_units, powSigned_units, ← Units.val_mul, ← zpow_add,
        show z1 - z0 + -z1 = -z0 by ring]
    · have hz (z : ℤ) (h : IsUnit ((K : ZMod (N * N)) ^ z.natAbs)) : z = 0 := by
        by_contra hz
        exact hK ((isUnit_pow_iff (by omega)).1 h)
      simp [hz z0 hK0, hz z1 hK1, powSigned]
  -- the randomizers: `enc(w₁ - w₀, ν₁ν₀⁻¹) ⊕ enc(w₀, ν₀) = enc(w₁, ν₁)`
  have henc : (newWithRandomizer N (w1 - w0) ((nu1 : ZMod N) * (nu0 : ZMod N)⁻¹).val :
      ZMod (N * N)) * newWithRandomizer N w0 nu0 = newWithRandomizer N w1 nu1 := by
    rw [cast_newWithRandomizer_mul, sub_add_cancel, cast_newWithRandomizer, cast_newWithRandomizer]
    congr 1
    exact natCast_pow_modulus_congr (by simp [mul_assoc, ZMod.inv_mul_of_unit _ hnu])
  have hunit : IsUnit ((newWithRandomizer N w0 nu0 : ZMod (N * N)) *
      powSigned (K : ZMod (N * N)) (-z0)) := by
    refine IsUnit.mul ?_ (isUnit_powSigned (by rwa [Int.natAbs_neg]))
    rw [cast_newWithRandomizer_of_unit w0 hnu.unit_spec.symm]
    exact Units.isUnit _
  have c0 := congrArg (Nat.cast : ℕ → ZMod (N * N)) h0
  have c1 := congrArg (Nat.cast : ℕ → ZMod (N * N)) h1
  simp only [cast_homomorphicAdd, cast_homomorphicMul] at c0 c1
  refine eq_of_cast_eq (newWithRandomizer_lt _ _) (homomorphicAdd_lt _ _)
    (hunit.mul_right_cancel ?_)
  rw [cast_homomorphicAdd, cast_homomorphicMul]
  calc _ = (newWithRandomizer N w1 nu1 : ZMod (N * N)) * powSigned (K : ZMod (N * N)) (-z0) := by
        rw [← mul_assoc, henc]
    _ = powSigned (K : ZMod (N * N)) (z1 - z0) *
          ((newWithRandomizer N w1 nu1 : ZMod (N * N)) * powSigned (K : ZMod (N * N)) (-z1)) := by
        rw [← hsig]
        ring
    _ = _ := by
        rw [c1, ← c0]
        ring

omit [NeZero N]

/-- Special soundness of `Π^dec`'s checks: answers to both bits give a witness. -/
theorem checkElement_extract (pub : DecPublicInputs Pt) [NeZero pub.pk0]
    (c : DecProofCommitment Pt) (el0 el1 : DecProofElement) (hnu : IsUnit (el0.nu : ZMod pub.pk0))
    (h0 : checkElement P gen pub false c el0 = some true)
    (h1 : checkElement P gen pub true c el1 = some true) :
    newWithRandomizer pub.pk0 (el1.w - el0.w)
        ((el1.nu : ZMod pub.pk0) * (el0.nu : ZMod pub.pk0)⁻¹).val =
      homomorphicAdd pub.pk0 (homomorphicMul pub.pk0 pub.capK (el1.z - el0.z)) pub.capD ∧
    pub.capX = ((el1.z - el0.z : ℤ) : ZMod P.curveOrder) • gen ∧
    pub.capS = ((el1.w - el0.w : ℤ) : ZMod P.curveOrder) • gen := by
  obtain ⟨hK0, hv0⟩ := (checkElement_eq_some_true_iff P gen).1 h0
  obtain ⟨hK1, hv1⟩ := (checkElement_eq_some_true_iff P gen).1 h1
  simp only [verifyElement, Bool.and_eq_true, beq_iff_eq, if_true, Bool.false_eq_true,
    if_false] at hv0 hv1
  obtain ⟨⟨hA0, hC0⟩, hB0⟩ := hv0
  obtain ⟨⟨hA1, hC1⟩, hB1⟩ := hv1
  refine ⟨cipher_extract hnu hK0 hK1 hA0 hA1, ?_, ?_⟩
  · rw [Int.cast_sub, sub_smul, hC1, hC0, add_sub_cancel_left]
  · rw [Int.cast_sub, sub_smul, hB1, hB0, add_sub_cancel_left]

theorem checkElement_extract_small :
    let c := commitment SchemeParams.small 1 smallInputs ⟨1, 1, 2⟩
    let el0 := element 1 1 2 15 ⟨1, 1, 2⟩ false
    let el1 := element 1 1 2 15 ⟨1, 1, 2⟩ true
    IsUnit (el0.nu : ZMod smallInputs.pk0) ∧
      checkElement SchemeParams.small 1 smallInputs false c el0 = some true ∧
      checkElement SchemeParams.small 1 smallInputs true c el1 = some true ∧
      newWithRandomizer smallInputs.pk0 (el1.w - el0.w)
          ((el1.nu : ZMod smallInputs.pk0) * (el0.nu : ZMod smallInputs.pk0)⁻¹).val =
        homomorphicAdd smallInputs.pk0
          (homomorphicMul smallInputs.pk0 smallInputs.capK (el1.z - el0.z)) smallInputs.capD ∧
      smallInputs.capX =
        ((el1.z - el0.z : ℤ) : ZMod SchemeParams.small.curveOrder) • (1 : ZMod SchemeParams.small.curveOrder) ∧
      smallInputs.capS =
        ((el1.w - el0.w : ℤ) : ZMod SchemeParams.small.curveOrder) • (1 : ZMod SchemeParams.small.curveOrder) := by
  intro c el0 el1
  haveI : NeZero smallInputs.pk0 := ⟨by decide⟩
  have hK : IsUnit (smallInputs.capK : ZMod (smallInputs.pk0 * smallInputs.pk0)) :=
    ⟨ZMod.unitOfCoprime 4 (by decide), rfl⟩
  have hD : newWithRandomizer smallInputs.pk0 1
      ((ZMod.unitOfCoprime 2 (by decide) : (ZMod smallInputs.pk0)ˣ) : ZMod smallInputs.pk0).val =
      homomorphicAdd smallInputs.pk0 (homomorphicMul smallInputs.pk0 smallInputs.capK 1)
        smallInputs.capD := by decide
  have hX : smallInputs.capX =
      ((1 : ℤ) : ZMod SchemeParams.small.curveOrder) • (1 : ZMod SchemeParams.small.curveOrder) :=
    rfl
  have hv (b : Bool) :=
    verifyElement_honest hK hD hX hX 1 1 (ZMod.unitOfCoprime 2 (by decide)) b
  have hnu : IsUnit (el0.nu : ZMod smallInputs.pk0) := by
    rw [show el0.nu = 2 by decide]
    exact (ZMod.unitOfCoprime 2 (by decide)).isUnit
  have h0 : checkElement SchemeParams.small 1 smallInputs false c el0 = some true :=
    (checkElement_eq_some_true_iff _ _).2 ⟨hK.pow _, hv false⟩
  have h1 : checkElement SchemeParams.small 1 smallInputs true c el1 = some true :=
    (checkElement_eq_some_true_iff _ _).2 ⟨hK.pow _, hv true⟩
  exact ⟨hnu, h0, h1, checkElement_extract SchemeParams.small 1 smallInputs c el0 el1 hnu h0 h1⟩

end Soundness

end DecProof

end Synedrion.Sigma
