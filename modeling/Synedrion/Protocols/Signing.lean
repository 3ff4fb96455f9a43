import Synedrion.Curve
import Synedrion.Protocols.Common
import Synedrion.Sigma.Ideal
import Mathlib.Algebra.Lie.OfAssociative

/-! Signing (`cggmp21/protocols/signing.rs`), one broadcast round. -/

namespace Synedrion.Protocols.Signing

open Synedrion.Paillier Synedrion.Paillier.Ciphertext Synedrion.Ideal Synedrion.Curve

variable (P : SchemeParams) (Pt : Type)

structure Context where
  message : ZMod P.curveOrder
  presigning : PresigningData P Pt
  keyShare : KeyShare P Pt

structure Round1 where
  r : ZMod P.curveOrder
  sPart : ZMod P.curveOrder
  context : Context P Pt
  numParties : ℕ
  partyIdx : ℕ

structure Round1Bcast where
  sPart : ZMod P.curveOrder

structure SigningProof where
  affGProofs : List (ℕ × ℕ × AffGProof)
  mulStarProofs : List (ℕ × MulStarProof)
  decProofs : List (ℕ × DecProof)

variable {P Pt} (xCoordinate : Pt → ZMod P.curveOrder) (gen : Pt)

def Round1.new (numParties partyIdx : ℕ) (context : Context P Pt) : Round1 P Pt :=
  let r := xCoordinate context.presigning.nonce
  ⟨r, context.presigning.ephemeralScalarShare * context.message +
    r * context.presigning.productShare, context, numParties, partyIdx⟩

namespace Round1

@[simp] theorem sPart_new (numParties partyIdx : ℕ) (context : Context P Pt) :
    (Round1.new xCoordinate numParties partyIdx context).sPart =
      context.presigning.ephemeralScalarShare * context.message +
        xCoordinate context.presigning.nonce * context.presigning.productShare := rfl

variable (r1 : Round1 P Pt)

def makeBroadcast : Round1Bcast P := ⟨r1.sPart⟩

def combinedS (bcPayloads : ℕ → ZMod P.curveOrder) : ZMod P.curveOrder :=
  ((holeRange r1.numParties r1.partyIdx).map bcPayloads).sum + r1.sPart

def hatCapH (rhoMul : ℕ) : ℕ :=
  let pk := r1.context.keyShare.paillierSk.modulus
  mulRandomizer pk
    (homomorphicMulUnsigned pk r1.context.presigning.capK r1.context.keyShare.secretShare.val) rhoMul

def decCiphertext (rhoMul : ℕ) : ℕ :=
  let pk := r1.context.keyShare.paillierSk.modulus
  let pre := r1.context.presigning
  (holeRange r1.numParties r1.partyIdx).foldl
    (fun c j => homomorphicAdd pk (homomorphicAdd pk c (pre.hatCapD j)) (pre.hatCapF j))
    (homomorphicAdd pk (r1.hatCapH rhoMul)
      (homomorphicMulUnsigned pk pre.capK r1.context.message.val))

def abortProof (s : ZMod P.curveOrder) (rhoMul : ℕ) : SigningProof :=
  let peers := holeRange r1.numParties r1.partyIdx
  let x := (Signed.fromScalar P.orderBits r1.context.keyShare.secretShare).value
  let pre := r1.context.presigning
  ⟨peers.flatMap fun j => peers.map fun l =>
      (j, l, (⟨x, (pre.hatBeta j).value, pre.hatS j, pre.hatR j⟩ : AffGProof)),
    peers.map fun l => (l, ⟨x, rhoMul⟩),
    peers.map fun l => (l, ⟨(Signed.fromScalar P.orderBits s).value,
      r1.context.keyShare.paillierSk.deriveRandomizer (r1.decCiphertext rhoMul)⟩)⟩

theorem encrypts_decCiphertext {rhoMul : ℕ} {k : ℤ} {alphaHat betaHat : ℕ → ℤ}
    (hK : Encrypts r1.context.keyShare.paillierSk.modulus r1.context.presigning.capK k)
    (hmul : Nat.Coprime rhoMul r1.context.keyShare.paillierSk.modulus)
    (hD : ∀ j ∈ holeRange r1.numParties r1.partyIdx,
      Encrypts r1.context.keyShare.paillierSk.modulus (r1.context.presigning.hatCapD j) (alphaHat j))
    (hF : ∀ j ∈ holeRange r1.numParties r1.partyIdx,
      Encrypts r1.context.keyShare.paillierSk.modulus (r1.context.presigning.hatCapF j) (betaHat j)) :
    Encrypts r1.context.keyShare.paillierSk.modulus (r1.decCiphertext rhoMul)
      (r1.context.keyShare.secretShare.val * k + r1.context.message.val * k +
        ((holeRange r1.numParties r1.partyIdx).map alphaHat).sum +
        ((holeRange r1.numParties r1.partyIdx).map betaHat).sum) := by
  have hH := (hK.homomorphicMulUnsigned r1.context.keyShare.secretShare.val).mulRandomizer
    ((ZMod.isUnit_iff_coprime _ _).2 hmul)
  exact encrypts_foldl _ _ _ hD hF (hH.homomorphicAdd (hK.homomorphicMulUnsigned _))

variable [AddCommGroup Pt] [Module (ZMod P.curveOrder) Pt] [DecidableEq Pt]

def finalizeToResult (bcPayloads : ℕ → ZMod P.curveOrder) (rhoMul : ℕ) :
    Except SigningProof (RecoverableSignature P.curveOrder Pt) :=
  let s := r1.combinedS bcPayloads
  match fromScalars xCoordinate gen r1.r s r1.context.keyShare.verifyingKeyAsPoint
      r1.context.message with
  | some sig => .ok sig
  | none => .error (r1.abortProof s rhoMul)

theorem toOption_finalizeToResult (bcPayloads : ℕ → ZMod P.curveOrder) (rhoMul : ℕ) :
    (r1.finalizeToResult xCoordinate gen bcPayloads rhoMul).toOption =
      fromScalars xCoordinate gen r1.r (r1.combinedS bcPayloads)
        r1.context.keyShare.verifyingKeyAsPoint r1.context.message := by
  unfold finalizeToResult
  dsimp only
  split <;> rename_i h <;> rw [h] <;> rfl

variable {xCoordinate gen r1} {bcPayloads : ℕ → ZMod P.curveOrder} {rhoMul : ℕ}

theorem finalizeToResult_of_fromScalars {sig : RecoverableSignature P.curveOrder Pt}
    (h : fromScalars xCoordinate gen r1.r (r1.combinedS bcPayloads)
      r1.context.keyShare.verifyingKeyAsPoint r1.context.message = some sig) :
    r1.finalizeToResult xCoordinate gen bcPayloads rhoMul = .ok sig := by
  rw [finalizeToResult, h]

theorem finalizeToResult_of_fromScalars_eq_none
    (h : fromScalars xCoordinate gen r1.r (r1.combinedS bcPayloads)
      r1.context.keyShare.verifyingKeyAsPoint r1.context.message = none) :
    r1.finalizeToResult xCoordinate gen bcPayloads rhoMul =
      .error (r1.abortProof (r1.combinedS bcPayloads) rhoMul) := by
  rw [finalizeToResult, h]

end Round1

section Combine

variable {n : ℕ} (keyShares : ℕ → KeyShare P Pt) (presigning : ℕ → PresigningData P Pt)
  (message : ZMod P.curveOrder)

theorem sum_sPart {R : Pt} (hR : ∀ i < n, (presigning i).nonce = R) :
    ∑ i ∈ Finset.range n, (Round1.new xCoordinate n i ⟨message, presigning i, keyShares i⟩).sPart =
      (∑ i ∈ Finset.range n, (presigning i).ephemeralScalarShare) * message +
        xCoordinate R * ∑ i ∈ Finset.range n, (presigning i).productShare := by
  rw [Finset.sum_mul, Finset.mul_sum, ← Finset.sum_add_distrib]
  exact Finset.sum_congr rfl fun i hi => by rw [Round1.sPart_new, hR i (Finset.mem_range.1 hi)]

theorem combinedS_eq_sum (r1 : ℕ → Round1 P Pt) {i : ℕ} (hi : i < n)
    (hn : (r1 i).numParties = n) (hidx : (r1 i).partyIdx = i) :
    (r1 i).combinedS (fun j => (r1 j).makeBroadcast.sPart) =
      ∑ j ∈ Finset.range n, (r1 j).sPart := by
  rw [Round1.combinedS, hn, hidx, add_comm]
  exact add_sum_holeRange (fun j => (r1 j).sPart) hi

variable [AddCommGroup Pt] [Module (ZMod P.curveOrder) Pt] [DecidableEq Pt]
  [Fact P.curveOrder.Prime] {k x : ZMod P.curveOrder}

theorem finalizeToResult_of_sum_sPart (r1 : ℕ → Round1 P Pt) {i : ℕ} (hi : i < n)
    (hn : (r1 i).numParties = n) (hidx : (r1 i).partyIdx = i)
    (hV : (r1 i).context.keyShare.verifyingKeyAsPoint = x • gen) (hx0 : x • gen ≠ 0)
    (hr1 : (r1 i).r = xCoordinate (k⁻¹ • gen))
    (hsum : ∑ j ∈ Finset.range n, (r1 j).sPart =
      k * ((r1 i).context.message + xCoordinate (k⁻¹ • gen) * x))
    (hk0 : k ≠ 0) (hr : xCoordinate (k⁻¹ • gen) ≠ 0)
    (hm : (r1 i).context.message + xCoordinate (k⁻¹ • gen) * x ≠ 0) (rhoMul : ℕ) :
    let sig : RecoverableSignature P.curveOrder Pt := ⟨xCoordinate (k⁻¹ • gen),
      k * ((r1 i).context.message + xCoordinate (k⁻¹ • gen) * x), k⁻¹ • gen⟩
    (r1 i).finalizeToResult xCoordinate gen (fun j => (r1 j).makeBroadcast.sPart) rhoMul = .ok sig ∧
      Verifies xCoordinate gen (r1 i).context.keyShare.verifyingKeyAsPoint (r1 i).context.message
        sig ∧
      recover gen (r1 i).context.message sig = (r1 i).context.keyShare.verifyingKeyAsPoint := by
  intro sig
  have hsig : fromScalars xCoordinate gen (r1 i).r
      ((r1 i).combinedS fun j => (r1 j).makeBroadcast.sPart)
      (r1 i).context.keyShare.verifyingKeyAsPoint (r1 i).context.message = some sig := by
    rw [combinedS_eq_sum r1 hi hn hidx, hsum, hr1, hV]
    exact fromScalars_eq_some hx0 hk0 hr hm
  exact ⟨Round1.finalizeToResult_of_fromScalars hsig, recover_of_fromScalars hsig⟩

/-- Parties with consistent presigning data assemble a signature that verifies and recovers `V`. -/
theorem finalizeToResult_verifies
    (hV : ∀ i < n, (keyShares i).verifyingKeyAsPoint = x • gen) (hx0 : x • gen ≠ 0)
    (hR : ∀ i < n, (presigning i).nonce = k⁻¹ • gen)
    (hk : ∑ i ∈ Finset.range n, (presigning i).ephemeralScalarShare = k)
    (hχ : ∑ i ∈ Finset.range n, (presigning i).productShare = k * x) (hk0 : k ≠ 0)
    (hr : xCoordinate (k⁻¹ • gen) ≠ 0) (hm : message + xCoordinate (k⁻¹ • gen) * x ≠ 0)
    (rhoMul : ℕ → ℕ) :
    let r := xCoordinate (k⁻¹ • gen)
    let r1 := fun i => Round1.new xCoordinate n i ⟨message, presigning i, keyShares i⟩
    let sig : RecoverableSignature P.curveOrder Pt := ⟨r, k * (message + r * x), k⁻¹ • gen⟩
    ∑ i ∈ Finset.range n, (r1 i).sPart = k * (message + r * x) ∧
      ∀ i < n, (r1 i).sPart =
          (presigning i).ephemeralScalarShare * message + r * (presigning i).productShare ∧
        (r1 i).finalizeToResult xCoordinate gen
          (fun j => (r1 j).makeBroadcast.sPart) (rhoMul i) = .ok sig ∧
        Verifies xCoordinate gen (keyShares i).verifyingKeyAsPoint message sig ∧
        recover gen message sig = (keyShares i).verifyingKeyAsPoint := by
  intro r r1 sig
  have hsum : ∑ i ∈ Finset.range n, (r1 i).sPart = k * (message + r * x) := by
    rw [sum_sPart xCoordinate keyShares presigning message hR, hk, hχ]
    ring
  exact ⟨hsum, fun i hi => ⟨by rw [Round1.sPart_new, hR i hi],
    finalizeToResult_of_sum_sPart xCoordinate gen r1 hi rfl rfl (hV i hi) hx0
      (congrArg xCoordinate (hR i hi)) hsum hk0 hr hm (rhoMul i)⟩⟩

end Combine

def smallXCoordinate (p : ZMod SchemeParams.small.curveOrder) : ZMod SchemeParams.small.curveOrder :=
  p

def smallKeyShares (i : ℕ) : KeyShare SchemeParams.small (ZMod SchemeParams.small.curveOrder) :=
  ⟨i, 2, 1, fun _ => 1, SecretKey.small, fun _ => ⟨SecretKey.small.modulus⟩⟩

def smallPresigning : ℕ → PresigningData SchemeParams.small (ZMod SchemeParams.small.curveOrder) :=
  fun _ => ⟨4, 1, 2, fun _ => ⟨0, 3⟩, fun _ => 1, fun _ => 1, 0, fun _ => 0, fun _ => 0⟩

theorem finalizeToResult_verifies_small :
    let two : ZMod SchemeParams.small.curveOrder := 2
    (∀ i < 2, (smallKeyShares i).verifyingKeyAsPoint = two • 1) ∧
      two • (1 : ZMod SchemeParams.small.curveOrder) ≠ 0 ∧
      (∀ i < 2, (smallPresigning i).nonce = two⁻¹ • 1) ∧
      ∑ i ∈ Finset.range 2, (smallPresigning i).ephemeralScalarShare = two ∧
      ∑ i ∈ Finset.range 2, (smallPresigning i).productShare = two * two ∧ two ≠ 0 ∧
      smallXCoordinate (two⁻¹ • 1) ≠ 0 ∧ 1 + smallXCoordinate (two⁻¹ • 1) * two ≠ 0 ∧
      let r := smallXCoordinate (two⁻¹ • 1)
      let r1 := fun i => Round1.new smallXCoordinate 2 i ⟨1, smallPresigning i, smallKeyShares i⟩
      let sig : RecoverableSignature SchemeParams.small.curveOrder
          (ZMod SchemeParams.small.curveOrder) := ⟨r, two * (1 + r * two), two⁻¹ • 1⟩
      ∑ i ∈ Finset.range 2, (r1 i).sPart = two * (1 + r * two) ∧
        ∀ i < 2, (r1 i).sPart =
            (smallPresigning i).ephemeralScalarShare * 1 + r * (smallPresigning i).productShare ∧
          (r1 i).finalizeToResult smallXCoordinate 1 (fun j => (r1 j).makeBroadcast.sPart) 1 =
            .ok sig ∧
          Verifies smallXCoordinate 1 (smallKeyShares i).verifyingKeyAsPoint 1 sig ∧
          recover 1 1 sig = (smallKeyShares i).verifyingKeyAsPoint := by
  intro two
  have hinv : two⁻¹ • (1 : ZMod SchemeParams.small.curveOrder) = 4 := by
    rw [ZMod.inv_eq_of_mul_eq_one _ 2 4 (by decide)]
    decide
  have hV : ∀ i < 2, (smallKeyShares i).verifyingKeyAsPoint = two • 1 := by decide
  obtain ⟨hR, hr, hm⟩ : (∀ i < 2, (smallPresigning i).nonce = two⁻¹ • 1) ∧
      smallXCoordinate (two⁻¹ • 1) ≠ 0 ∧ 1 + smallXCoordinate (two⁻¹ • 1) * two ≠ 0 := by
    rw [hinv]
    decide
  have hk : ∑ i ∈ Finset.range 2, (smallPresigning i).ephemeralScalarShare = two := by decide
  have hχ : ∑ i ∈ Finset.range 2, (smallPresigning i).productShare = two * two := by decide
  have hx0 : two • (1 : ZMod SchemeParams.small.curveOrder) ≠ 0 := by decide
  have hk0 : two ≠ 0 := by decide
  exact ⟨hV, hx0, hR, hk, hχ, hk0, hr, hm,
    haveI := SchemeParams.small_prime
    finalizeToResult_verifies smallXCoordinate 1 smallKeyShares smallPresigning 1 hV hx0 hR hk hχ hk0
      hr hm fun _ => 1⟩

end Synedrion.Protocols.Signing
