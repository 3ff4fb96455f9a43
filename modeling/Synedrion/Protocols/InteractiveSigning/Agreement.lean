import Synedrion.Protocols.Presigning.Agreement
import Synedrion.Protocols.InteractiveSigning

/-! Interactive signing among parties some of which follow the code. -/

namespace Synedrion.Protocols

open Synedrion.Curve

variable {P : SchemeParams} {Pt : Type} [AddCommGroup Pt] [Module (ZMod P.curveOrder) Pt]
  {gen : Pt} {n : ℕ} {x : ℕ → ZMod P.curveOrder} {sk : ℕ → Paillier.SecretKey P.primeBits}

theorem KeyShare.Issued.verifyingKeyAsPoint_eq {ks : KeyShare P Pt} (h : ks.Issued gen n x sk) :
    ks.verifyingKeyAsPoint = (∑ m ∈ Finset.range n, x m) • gen := by
  rw [KeyShare.verifyingKeyAsPoint, h.numParties_eq, sum_range_list, Finset.sum_smul]
  exact Finset.sum_congr rfl fun m _ => h.publicShares_eq m

namespace Signing.Round1

variable (r1 : Round1 P Pt)

omit [AddCommGroup Pt] [Module (ZMod P.curveOrder) Pt] in
theorem combinedS_eq_sum {parts : ℕ → ZMod P.curveOrder} {bcPayloads : ℕ → ZMod P.curveOrder}
    (hi : r1.partyIdx < r1.numParties) (hown : r1.sPart = parts r1.partyIdx)
    (hbc : ∀ j ∈ holeRange r1.numParties r1.partyIdx, bcPayloads j = parts j) :
    r1.combinedS bcPayloads = ∑ j ∈ Finset.range r1.numParties, parts j := by
  rw [combinedS, List.map_congr_left hbc, hown, add_comm]
  exact add_sum_holeRange parts hi

end Signing.Round1

namespace InteractiveSigning

open Synedrion.Protocols.Presigning

variable [DecidableEq Pt] (xCoordinate : Pt → ZMod P.curveOrder)

theorem finalize_eq_ok {r3 : Round3 P Pt} {message : ZMod P.curveOrder}
    {dmPayloads : ℕ → Round3Payload P Pt} {rhoMul : ℕ} {r1 : Signing.Round1 P Pt}
    (h : finalize xCoordinate gen r3 message dmPayloads rhoMul = some (.ok r1)) :
    ∃ data, r3.finalizeToResult gen dmPayloads rhoMul = some (.ok data) ∧
      r1 = signingRound1 xCoordinate r3.context.keyShare message data := by
  obtain ⟨res, hres, hr1⟩ := Option.map_eq_some'.1 h
  cases res with
  | error e => cases hr1
  | ok data => exact ⟨data, hres, (Except.ok.inj hr1).symm⟩

variable (hP : P.Valid) (hslack : P.lBound + P.epsBound < 2 * P.primeBits - 3)

include hP hslack in
/-- Honest signers on one set of parts assemble the same signature, or neither does. -/
theorem finalizeToResult_agree [Fact P.curveOrder.Prime] {r3 r3' : Round3 P Pt}
    (h : r3.Reachable gen) (h' : r3'.Reachable gen) (hks : r3.context.keyShare.Issued gen n x sk)
    (hks' : r3'.context.keyShare.Issued gen n x sk)
    (hK : ∀ m < n, r3.kCiphertexts m = r3'.kCiphertexts m)
    {msgs msgs' : ℕ → Round3Direct P Pt} {payloads payloads' : ℕ → Round3Payload P Pt}
    (hrecv : ∀ j ∈ holeRange r3.context.keyShare.numParties r3.context.keyShare.index,
      r3.verifyDirectMessage j (msgs j) = .ok (payloads j))
    (hrecv' : ∀ j ∈ holeRange r3'.context.keyShare.numParties r3'.context.keyShare.index,
      r3'.verifyDirectMessage j (msgs' j) = .ok (payloads' j))
    (message : ZMod P.curveOrder) {rhoMul rhoMul' : ℕ} {s1 s1' : Signing.Round1 P Pt}
    (hfin : finalize xCoordinate gen r3 message payloads rhoMul = some (.ok s1))
    (hfin' : finalize xCoordinate gen r3' message payloads' rhoMul' = some (.ok s1'))
    (parts : ℕ → ZMod P.curveOrder) (hown : s1.sPart = parts s1.partyIdx)
    (hown' : s1'.sPart = parts s1'.partyIdx) {bc bc' : ℕ → ZMod P.curveOrder}
    (hbc : ∀ j ∈ holeRange s1.numParties s1.partyIdx, bc j = parts j)
    (hbc' : ∀ j ∈ holeRange s1'.numParties s1'.partyIdx, bc' j = parts j) (rhoSig rhoSig' : ℕ) :
    (s1.finalizeToResult xCoordinate gen bc rhoSig).toOption =
      (s1'.finalizeToResult xCoordinate gen bc' rhoSig').toOption := by
  obtain ⟨data, hres, rfl⟩ := finalize_eq_ok xCoordinate hfin
  obtain ⟨data', hres', rfl⟩ := finalize_eq_ok xCoordinate hfin'
  have hR : data.nonce = data'.nonce := by
    rw [h.nonce_eq_sum gen hP hslack hks hrecv hres, h'.nonce_eq_sum gen hP hslack hks' hrecv' hres']
    exact congrArg (·⁻¹ • gen) (Finset.sum_congr rfl fun m hm => by
      rw [hK m (Finset.mem_range.1 hm)])
  have hS := Signing.Round1.combinedS_eq_sum _ (hks.index_lt.trans_eq hks.numParties_eq.symm) hown hbc
  have hS' := Signing.Round1.combinedS_eq_sum _ (hks'.index_lt.trans_eq hks'.numParties_eq.symm) hown' hbc'
  simp only [Signing.Round1.toOption_finalizeToResult, hS, hS']
  simp only [signingRound1, Signing.Round1.new, hks.numParties_eq, hks'.numParties_eq,
    hks.verifyingKeyAsPoint_eq, hks'.verifyingKeyAsPoint_eq, hR]

theorem finalizeToResult_agree_small :
    let s1 := fun i =>
      signingRound1 Signing.smallXCoordinate (smallShares.share i) 1 (smallDraws.presigningData i)
    ((s1 0).finalizeToResult Signing.smallXCoordinate 1 (fun j => (s1 j).sPart) 1).toOption =
      ((s1 1).finalizeToResult Signing.smallXCoordinate 1 (fun j => (s1 j).sPart) 1).toOption := by
  intro s1
  have hk : ∑ i ∈ Finset.range 2, smallDraws.k i ≠ 0 := by decide
  have hγ : ∑ i ∈ Finset.range 2, smallDraws.gamma i ≠ 0 := by decide
  haveI := SchemeParams.small_prime
  have hfin (i : ℕ) (hi : i < 2) : finalize Signing.smallXCoordinate 1 (smallDraws.round3 i) 1
      smallDraws.payload3 1 = some (.ok (s1 i)) := by
    rw [finalize, smallDraws.finalizeToResult_round3 SchemeParams.small_valid hk hγ hi]
    rfl
  have hr (i : ℕ) (hi : i < 2) : (smallDraws.round3 i).Reachable 1 :=
    smallDraws.reachable_round3 SchemeParams.small_valid le_rfl (by decide) hi
  exact finalizeToResult_agree Signing.smallXCoordinate SchemeParams.small_valid (by decide)
    (hr 0 (by decide)) (hr 1 (by decide))
    (KeyShares.issued 1 smallShares (by decide)) (KeyShares.issued 1 smallShares (by decide))
    (fun _ _ => rfl)
    (fun j hj => smallDraws.verifyDirectMessage_round3 SchemeParams.small_valid (by decide)
      (mem_holeRange.1 hj).1)
    (fun j hj => smallDraws.verifyDirectMessage_round3 SchemeParams.small_valid (by decide)
      (mem_holeRange.1 hj).1)
    1 (hfin 0 (by decide)) (hfin 1 (by decide)) (fun j => (s1 j).sPart) rfl rfl (fun _ _ => rfl)
    (fun _ _ => rfl) 1 1

end InteractiveSigning

end Synedrion.Protocols
