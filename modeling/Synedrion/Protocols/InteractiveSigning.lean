import Synedrion.Protocols.Presigning.Honest
import Synedrion.Protocols.Signing

/-! Interactive signing (`protocols/interactive_signing.rs`): presigning, then signing. -/

namespace Synedrion.Protocols.InteractiveSigning

open Synedrion.Paillier Synedrion.Ideal Synedrion.Curve
open Synedrion.Protocols.Presigning (KeyShares Draws PresigningProof smallShares smallDraws)

variable {P : SchemeParams} {Pt : Type} (xCoordinate : Pt → ZMod P.curveOrder)

def signingRound1 (keyShare : KeyShare P Pt) (message : ZMod P.curveOrder)
    (presigning : PresigningData P Pt) : Signing.Round1 P Pt :=
  Signing.Round1.new xCoordinate keyShare.numParties keyShare.index ⟨message, presigning, keyShare⟩

variable [AddCommGroup Pt] [Module (ZMod P.curveOrder) Pt] [DecidableEq Pt] (gen : Pt)

def finalize (r3 : Presigning.Round3 P Pt) (message : ZMod P.curveOrder)
    (dmPayloads : ℕ → Presigning.Round3Payload P Pt) (rhoMul : ℕ) :
    Option (Except PresigningProof (Signing.Round1 P Pt)) :=
  (r3.finalizeToResult gen dmPayloads rhoMul).map fun res =>
    res.map (signingRound1 xCoordinate r3.context.keyShare message)

section Honest

variable {gen} {n : ℕ} {shares : KeyShares (P := P) gen n} (d : Draws shares)

omit [DecidableEq Pt] in
theorem verifyingKeyAsPoint_eq (i : ℕ) :
    (shares.share i).verifyingKeyAsPoint =
      (∑ j ∈ Finset.range n, (shares.share j).secretShare) • gen := by
  rw [KeyShare.verifyingKeyAsPoint, shares.numParties_eq, sum_range_list, Finset.sum_smul]
  exact Finset.sum_congr rfl fun j _ => shares.publicShares_eq i j

/-- Honest presigning then signing: each party's signature verifies and recovers `V`. -/
theorem honest_signature [Fact P.curveOrder.Prime] (hP : P.Valid)
    (hk : ∑ j ∈ Finset.range n, d.k j ≠ 0) (hγ : ∑ j ∈ Finset.range n, d.gamma j ≠ 0)
    (hx : (∑ j ∈ Finset.range n, (shares.share j).secretShare) • gen ≠ 0)
    (message : ZMod P.curveOrder)
    (hr : xCoordinate ((∑ j ∈ Finset.range n, d.k j)⁻¹ • gen) ≠ 0)
    (hm : message + xCoordinate ((∑ j ∈ Finset.range n, d.k j)⁻¹ • gen) *
      ∑ j ∈ Finset.range n, (shares.share j).secretShare ≠ 0)
    (rhoMul : ℕ → ℕ) {i : ℕ} (hi : i < n) :
    let k := ∑ j ∈ Finset.range n, d.k j
    let x := ∑ j ∈ Finset.range n, (shares.share j).secretShare
    let r := xCoordinate (k⁻¹ • gen)
    let r1 := fun j => signingRound1 xCoordinate (shares.share j) message (d.presigningData j)
    let sig : RecoverableSignature P.curveOrder Pt := ⟨r, k * (message + r * x), k⁻¹ • gen⟩
    finalize xCoordinate gen (d.round3 i) message d.payload3 (rhoMul i) = some (.ok (r1 i)) ∧
      (r1 i).finalizeToResult xCoordinate gen (fun j => (r1 j).makeBroadcast.sPart) (rhoMul i) =
        .ok sig ∧
      Verifies xCoordinate gen (shares.share i).verifyingKeyAsPoint message sig ∧
      recover gen message sig = (shares.share i).verifyingKeyAsPoint := by
  intro k x r r1 sig
  have hR (j : ℕ) (hj : j < n) : (d.presigningData j).nonce = k⁻¹ • gen :=
    d.nonce_presigningData hP hγ hj
  have hsum : ∑ j ∈ Finset.range n, (r1 j).sPart = k * (message + r * x) := by
    rw [show ∑ j ∈ Finset.range n, (r1 j).sPart = ∑ j ∈ Finset.range n,
        (Signing.Round1.new xCoordinate n j ⟨message, d.presigningData j, shares.share j⟩).sPart
      from rfl, Signing.sum_sPart xCoordinate _ _ message hR]
    simp only [Draws.ephemeralScalarShare_presigningData, Draws.productShare_presigningData,
      d.sum_productShare_round3 hP]
    ring
  refine ⟨by simp only [finalize, d.finalizeToResult_round3 hP hk hγ hi _]; rfl,
    Signing.finalizeToResult_of_sum_sPart xCoordinate gen r1 hi (shares.numParties_eq i)
      (shares.index_eq i) (verifyingKeyAsPoint_eq i) hx (congrArg xCoordinate (hR i hi)) hsum hk hr
      hm (rhoMul i)⟩

theorem honest_signature_small :
    let r1 := fun j => signingRound1 Signing.smallXCoordinate (smallShares.share j) 1
      (smallDraws.presigningData j)
    finalize Signing.smallXCoordinate 1 (smallDraws.round3 0) 1 smallDraws.payload3 1 =
        some (.ok (r1 0)) ∧
      ∃ sig, (r1 0).finalizeToResult Signing.smallXCoordinate 1
          (fun j => (r1 j).makeBroadcast.sPart) 1 = .ok sig ∧
        Verifies Signing.smallXCoordinate 1 (smallShares.share 0).verifyingKeyAsPoint 1 sig ∧
        recover 1 1 sig = (smallShares.share 0).verifyingKeyAsPoint := by
  have hk : ∑ j ∈ Finset.range 2, smallDraws.k j ≠ 0 := by decide
  have hγ : ∑ j ∈ Finset.range 2, smallDraws.gamma j ≠ 0 := by decide
  have hx : (∑ j ∈ Finset.range 2, (smallShares.share j).secretShare) •
      (1 : ZMod SchemeParams.small.curveOrder) ≠ 0 := by decide
  have hinv : (∑ j ∈ Finset.range 2, smallDraws.k j)⁻¹ • (1 : ZMod SchemeParams.small.curveOrder)
      = 4 := by
    rw [ZMod.inv_eq_of_mul_eq_one _ _ 4 (by decide)]
    decide
  have hr : Signing.smallXCoordinate ((∑ j ∈ Finset.range 2, smallDraws.k j)⁻¹ • 1) ≠ 0 := by
    rw [hinv]
    decide
  have hm : 1 + Signing.smallXCoordinate ((∑ j ∈ Finset.range 2, smallDraws.k j)⁻¹ • 1) *
      ∑ j ∈ Finset.range 2, (smallShares.share j).secretShare ≠ 0 := by
    rw [hinv]
    decide
  haveI := SchemeParams.small_prime
  obtain ⟨hfin, hsig, hv, hrec⟩ := honest_signature Signing.smallXCoordinate smallDraws
    SchemeParams.small_valid hk hγ hx 1 hr hm (fun _ => 1) (i := 0) (by decide)
  exact ⟨hfin, _, hsig, hv, hrec⟩

omit [DecidableEq Pt] in
theorem encrypts_decCiphertext (message : ZMod P.curveOrder) (i : ℕ) {rhoMul : ℕ}
    (hmul : Nat.Coprime rhoMul (shares.share i).paillierSk.modulus) :
    Encrypts (shares.share i).paillierSk.modulus
      ((signingRound1 xCoordinate (shares.share i) message (d.presigningData i)).decCiphertext
        rhoMul)
      ((shares.share i).secretShare.val * (d.k i).val + message.val * (d.k i).val +
        ((holeRange n i).map fun j =>
          ((shares.share j).secretShare.val * (d.k i).val + -(d.betaHat j i).value : ℤ)).sum +
        ((holeRange n i).map fun j => (d.betaHat i j).value).sum) := by
  have hK : Encrypts (shares.share i).paillierSk.modulus (d.presigningData i).capK (d.k i).val := by
    show Encrypts _ (d.round1 (shares.share i).index).kCiphertext _
    rw [shares.index_eq]
    exact Encrypts.newWithRandomizer _ ((ZMod.isUnit_iff_coprime _ _).2 (d.rho_coprime i))
  have hpeers : holeRange (signingRound1 xCoordinate (shares.share i) message
      (d.presigningData i)).numParties (signingRound1 xCoordinate (shares.share i) message
      (d.presigningData i)).partyIdx = holeRange n i := by
    show holeRange (shares.share i).numParties (shares.share i).index = _
    rw [shares.numParties_eq, shares.index_eq]
  have h := (signingRound1 xCoordinate (shares.share i) message
    (d.presigningData i)).encrypts_decCiphertext hK hmul (fun j _ => d.encrypts_direct2_dHat i j)
    (fun j _ => Encrypts.newWithRandomizer _ ((ZMod.isUnit_iff_coprime _ _).2 (d.hatR_coprime i j)))
  rwa [hpeers] at h

omit [DecidableEq Pt] in
theorem intCast_plaintext (hP : P.Valid) (message : ZMod P.curveOrder) (i : ℕ) :
    (((shares.share i).secretShare.val * (d.k i).val + message.val * (d.k i).val +
        ((holeRange n i).map fun j =>
          ((shares.share j).secretShare.val * (d.k i).val + -(d.betaHat j i).value : ℤ)).sum +
        ((holeRange n i).map fun j => (d.betaHat i j).value).sum : ℤ) : ZMod P.curveOrder) =
      d.k i * message + (d.presigningData i).productShare := by
  rw [Draws.productShare_presigningData, d.productShare_round3 hP, ← sum_holeRange,
    ← sum_holeRange]
  simp only [Int.cast_add, Int.cast_mul, Int.cast_neg, Int.cast_list_sum, List.map_map,
    Function.comp_def, Draws.intCast_val hP]
  ring

omit [DecidableEq Pt] in
/-- The `Π^dec` ciphertext encrypts `k_i * m + χ_i` (mod `q`), but the proofs are for `s`. -/
theorem decProofs_modEq (hP : P.Valid) (message s : ZMod P.curveOrder) (i : ℕ) {rhoMul : ℕ}
    (hmul : Nat.Coprime rhoMul (shares.share i).paillierSk.modulus) :
    ∃ y : ℤ, Encrypts (shares.share i).paillierSk.modulus
        ((signingRound1 xCoordinate (shares.share i) message (d.presigningData i)).decCiphertext
          rhoMul) y ∧
      (y : ZMod P.curveOrder) = d.k i * message + (d.presigningData i).productShare ∧
      ∀ p ∈ ((signingRound1 xCoordinate (shares.share i) message (d.presigningData i)).abortProof
          s rhoMul).decProofs,
        (p.2.y : ZMod P.curveOrder) = s ∧
        (p.2.verify P (shares.share i).paillierSk.modulus s
            ((signingRound1 xCoordinate (shares.share i) message (d.presigningData i)).decCiphertext
              rhoMul) = true →
          p.2.y ≡ y [ZMOD (shares.share i).paillierSk.modulus]) := by
  have hC := encrypts_decCiphertext xCoordinate d message i hmul
  refine ⟨_, hC, intCast_plaintext d hP message i, fun p hp => ?_⟩
  simp only [Signing.Round1.abortProof, List.mem_map] at hp
  obtain ⟨l, -, rfl⟩ := hp
  exact ⟨Draws.intCast_val hP s, fun h =>
    (shares.share i).paillierSk.modEq_of_encrypts (DecProof.encrypts_of_verify h) hC⟩

theorem decProofs_modEq_small :
    Nat.Coprime 1 (smallShares.share 0).paillierSk.modulus ∧
      ∃ y : ℤ, Encrypts (smallShares.share 0).paillierSk.modulus
          ((signingRound1 Signing.smallXCoordinate (smallShares.share 0) 1
            (smallDraws.presigningData 0)).decCiphertext 1) y ∧
        (y : ZMod SchemeParams.small.curveOrder) =
          smallDraws.k 0 * 1 + (smallDraws.presigningData 0).productShare ∧
        ∀ p ∈ ((signingRound1 Signing.smallXCoordinate (smallShares.share 0) 1
            (smallDraws.presigningData 0)).abortProof 0 1).decProofs,
          (p.2.y : ZMod SchemeParams.small.curveOrder) = 0 ∧
          (p.2.verify SchemeParams.small (smallShares.share 0).paillierSk.modulus 0
              ((signingRound1 Signing.smallXCoordinate (smallShares.share 0) 1
                (smallDraws.presigningData 0)).decCiphertext 1) = true →
            p.2.y ≡ y [ZMOD (smallShares.share 0).paillierSk.modulus]) :=
  ⟨Nat.coprime_one_left _, decProofs_modEq Signing.smallXCoordinate smallDraws
    SchemeParams.small_valid 1 0 0 (Nat.coprime_one_left _)⟩

end Honest

def smallSigning
    (xCoordinate : ZMod SchemeParams.small.curveOrder → ZMod SchemeParams.small.curveOrder) :
    Signing.Round1 SchemeParams.small (ZMod SchemeParams.small.curveOrder) :=
  signingRound1 xCoordinate (smallShares.share 0) 1 (smallDraws.presigningData 0)

/-- At `s = 0` the `Π^dec` ciphertext decrypts to `3`: no proof of the bundle verifies. -/
theorem decProofs_small_false
    (xCoordinate : ZMod SchemeParams.small.curveOrder → ZMod SchemeParams.small.curveOrder) :
    (smallDraws.round3 0).finalizeToResult 1 smallDraws.payload3 1 =
        some (.ok (smallDraws.presigningData 0)) ∧
      (smallSigning xCoordinate).combinedS (fun _ => -(smallSigning xCoordinate).sPart) = 0 ∧
      (smallSigning xCoordinate).finalizeToResult xCoordinate 1
          (fun _ => -(smallSigning xCoordinate).sPart) 1 =
        .error ((smallSigning xCoordinate).abortProof 0 1) ∧
      ((smallSigning xCoordinate).abortProof 0 1).decProofs =
        [(1, ⟨0, SecretKey.small.deriveRandomizer ((smallSigning xCoordinate).decCiphertext 1)⟩)] ∧
      SecretKey.small.decryptSigned ((smallSigning xCoordinate).decCiphertext 1) = 3 ∧
      ∀ p ∈ ((smallSigning xCoordinate).abortProof 0 1).decProofs,
        p.2.verify SchemeParams.small SecretKey.small.modulus 0
          ((smallSigning xCoordinate).decCiphertext 1) = false := by
  have hk : ∑ j ∈ Finset.range 2, smallDraws.k j ≠ 0 := by decide
  have hγ : ∑ j ∈ Finset.range 2, smallDraws.gamma j ≠ 0 := by decide
  have hs : (smallSigning xCoordinate).combinedS (fun _ => -(smallSigning xCoordinate).sPart) = 0 := by
    show (([1] : List ℕ).map fun _ => -(smallSigning xCoordinate).sPart).sum + _ = 0
    simp
  have hfin : (smallSigning xCoordinate).finalizeToResult xCoordinate 1
      (fun _ => -(smallSigning xCoordinate).sPart) 1 =
        .error ((smallSigning xCoordinate).abortProof 0 1) := by
    rw [Signing.Round1.finalizeToResult_of_fromScalars_eq_none] <;> rw [hs]
    exact fromScalars_zero
  have hpeers : holeRange (smallSigning xCoordinate).numParties
      (smallSigning xCoordinate).partyIdx = [1] := rfl
  have hproofs : ((smallSigning xCoordinate).abortProof 0 1).decProofs =
      [(1, ⟨0, SecretKey.small.deriveRandomizer ((smallSigning xCoordinate).decCiphertext 1)⟩)] := by
    simp only [Signing.Round1.abortProof, hpeers, List.map_cons, List.map_nil]
    rfl
  have hplain : Encrypts SecretKey.small.modulus ((smallSigning xCoordinate).decCiphertext 1) 3 := by
    have h := encrypts_decCiphertext xCoordinate smallDraws 1 0 (Nat.coprime_one_left _)
    have e : ((smallShares.share 0).secretShare.val * (smallDraws.k 0).val +
        (1 : ZMod SchemeParams.small.curveOrder).val * (smallDraws.k 0).val +
        ((holeRange 2 0).map fun j => ((smallShares.share j).secretShare.val * (smallDraws.k 0).val +
          -(smallDraws.betaHat j 0).value : ℤ)).sum +
        ((holeRange 2 0).map fun j => (smallDraws.betaHat 0 j).value).sum : ℤ) = 3 := by
      decide
    rwa [e] at h
  have h3 : SecretKey.small.decryptSigned ((smallSigning xCoordinate).decCiphertext 1) = 3 :=
    SecretKey.small.decryptSigned_of_encrypts hplain (by decide) (by decide)
  refine ⟨haveI := SchemeParams.small_prime
    smallDraws.finalizeToResult_round3 SchemeParams.small_valid hk hγ (by decide) 1, hs, hfin,
    hproofs, h3, ?_⟩
  simp only [hproofs, List.mem_singleton, forall_eq]
  refine Bool.eq_false_iff.2 fun h => ?_
  have hy := DecProof.encrypts_of_verify h
  dsimp only at hy
  have h0 := SecretKey.small.decryptSigned_of_encrypts hy (by decide) (by decide)
  omega

end Synedrion.Protocols.InteractiveSigning
