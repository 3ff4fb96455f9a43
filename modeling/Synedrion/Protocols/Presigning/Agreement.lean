import Synedrion.Protocols.Presigning.Honest
import Synedrion.Protocols.Presigning.Reachable

/-! Presigning among parties some of which follow the code while the others send anything. -/

namespace Synedrion.Ideal

variable {P : SchemeParams} {Pt : Type} [AddCommGroup Pt] [Module (ZMod P.curveOrder) Pt]
  [DecidableEq Pt]

open Synedrion.Paillier Synedrion.Paillier.Ciphertext

section Slack

variable (hslack : P.lBound + P.epsBound < 2 * P.primeBits - 3)
include hslack

theorem two_mul_slack_lt_modulus (sk : SecretKey P.primeBits) :
    2 * 2 ^ (P.lBound + P.epsBound) < sk.modulus :=
  calc 2 * 2 ^ (P.lBound + P.epsBound) = 2 ^ (P.lBound + P.epsBound + 1) := (pow_succ' _ _).symm
    _ ≤ 2 ^ (2 * P.primeBits - 3) := Nat.pow_le_pow_right two_pos hslack
    _ < 2 * 2 ^ (2 * P.primeBits - 3) := by have := Nat.two_pow_pos (2 * P.primeBits - 3); omega
    _ ≤ sk.modulus := sk.two_mul_two_pow_le_modulus

theorem LogStarProof.eq_smul_decryptSigned {sk : SecretKey P.primeBits} {proof : LogStarProof}
    {capC : ℕ} {g capX : Pt} (h : proof.verify P sk.modulus capC g capX = true) :
    capX = (sk.decryptSigned capC : ZMod P.curveOrder) • g := by
  simp only [LogStarProof.verify, Bool.and_eq_true, decide_eq_true_eq, beq_iff_eq] at h
  obtain ⟨⟨⟨hx, hrho⟩, hC⟩, hX⟩ := h
  have henc : Encrypts sk.modulus capC proof.x := by
    rw [Encrypts, hC]
    exact Encrypts.newWithRandomizer _ ((ZMod.isUnit_iff_coprime _ _).2 hrho)
  have hroom := two_mul_slack_lt_modulus hslack sk
  rw [hX, sk.decryptSigned_of_encrypts henc (by omega) (by omega)]

end Slack

end Synedrion.Ideal

namespace Synedrion.Protocols

open Synedrion.Paillier

variable {P : SchemeParams} {Pt : Type} [AddCommGroup Pt] [Module (ZMod P.curveOrder) Pt]
  (gen : Pt)

structure KeyShare.Issued (ks : KeyShare P Pt) (n : ℕ) (x : ℕ → ZMod P.curveOrder)
    (sk : ℕ → SecretKey P.primeBits) : Prop where
  numParties_eq : ks.numParties = n
  index_lt : ks.index < n
  secretShare_eq : ks.secretShare = x ks.index
  paillierSk_eq : ks.paillierSk = sk ks.index
  publicShares_eq : ∀ m, ks.publicShares m = x m • gen
  paillierPk_eq : ∀ m, (ks.publicAux m).paillierPk = (sk m).modulus

end Synedrion.Protocols

namespace Synedrion.Protocols.Presigning

open Synedrion.Paillier Synedrion.Paillier.Ciphertext Synedrion.Ideal

variable {P : SchemeParams} {Pt : Type} [AddCommGroup Pt] [Module (ZMod P.curveOrder) Pt]
  [DecidableEq Pt] (gen : Pt)

omit [DecidableEq Pt] in
theorem KeyShares.issued {n : ℕ} (shares : KeyShares (P := P) gen n) {i : ℕ} (hi : i < n) :
    (shares.share i).Issued gen n (fun m => (shares.share m).secretShare)
      (fun m => (shares.share m).paillierSk) :=
  ⟨shares.numParties_eq i, (shares.index_eq i).symm ▸ hi, by rw [shares.index_eq],
    by rw [shares.index_eq], shares.publicShares_eq i, shares.paillierPk_eq i⟩

namespace Draws

variable {gen} {n : ℕ} {shares : KeyShares (P := P) gen n} (d : Draws shares)

omit [DecidableEq Pt] in
theorem reachable_round2 (hP : P.Valid) (i : ℕ) : (d.round2 i).Reachable :=
  .mk _ _ _ (d.rho_coprime i) (d.nu_coprime i) _ _ (d.round1_finalize hP i)

theorem reachable_round3 (hP : P.Valid) (hn : 2 ≤ n)
    (hfit : P.deltaBound (n - 1) < P.modulusBits) {i : ℕ} (hi : i < n) :
    (d.round3 i).Reachable gen :=
  .mk (d.reachable_round2 hP i) _ _ (fun j _ => d.verifyDirectMessage_direct2 hP i j) _ _ _ _ _ _
    (d.beta_bounded i) (d.r_coprime i) (d.round2_finalize hn hfit hi)

end Draws

section Adversarial

variable (hP : P.Valid) (hslack : P.lBound + P.epsBound < 2 * P.primeBits - 3)
  {n : ℕ} {x : ℕ → ZMod P.curveOrder} {sk : ℕ → SecretKey P.primeBits}

include hP hslack in
theorem intCast_decryptSigned_newWithRandomizer (sk : SecretKey P.primeBits) (a : ZMod P.curveOrder)
    {r : ℕ} (hr : Nat.Coprime r sk.modulus) :
    ((sk.decryptSigned (newWithRandomizer sk.modulus a.val r) : ℤ) : ZMod P.curveOrder) = a := by
  have ha := Draws.natAbs_val_le hP a
  have hroom := two_mul_slack_lt_modulus hslack sk
  rw [sk.decryptSigned_of_encrypts
    (Encrypts.newWithRandomizer _ ((ZMod.isUnit_iff_coprime _ _).2 hr)) (by omega) (by omega),
    Draws.intCast_val hP]

namespace Round1

omit [DecidableEq Pt] in
include hP in
/-- An honest party never blames a peer that follows Round 1, whatever the others send. -/
theorem finalizeToNextRound_ne_error_new (r1 : Round1 P Pt) {ks : KeyShare P Pt}
    (hks : r1.context.keyShare.Issued gen n x sk) (hks' : ks.Issued gen n x sk)
    (k gamma : ZMod P.curveOrder) (rho nu : ℕ) (hrho : Nat.Coprime rho ks.paillierSk.modulus)
    {bcPayloads : ℕ → Round1Bcast} {dmPayloads : ℕ → EncProof}
    (hbc : bcPayloads ks.index = (Round1.new ks k gamma rho nu).makeBroadcast)
    (hdm : dmPayloads ks.index = (Round1.new ks k gamma rho nu).makeDirectMessage)
    (e : PresigningError) :
    r1.finalizeToNextRound bcPayloads dmPayloads ≠ .error (ks.index, e) := by
  unfold finalizeToNextRound
  dsimp only
  split
  · rename_i j hj
    simp only [ne_eq, Except.error.injEq, Prod.mk.injEq, not_and]
    rintro rfl
    have hfail := List.find?_some hj
    rw [hbc, hdm, hks.paillierPk_eq, ← hks'.paillierSk_eq] at hfail
    simp [makeBroadcast, makeDirectMessage, Round1.new,
      EncProof.verify_honest (Draws.natAbs_val_le hP k) hrho] at hfail
  · exact fun h => by cases h

theorem finalizeToNextRound_ne_error_new_small :
    (smallDraws.round1 0).finalizeToNextRound (fun j => (smallDraws.round1 j).makeBroadcast)
      (fun j => (smallDraws.round1 j).makeDirectMessage) ≠
        .error (1, .round1 "Failed to verify EncProof") := by
  apply finalizeToNextRound_ne_error_new 1 SchemeParams.small_valid _
    (KeyShares.issued 1 smallShares (by decide)) (KeyShares.issued 1 smallShares (by decide))
    (smallDraws.k 1) (smallDraws.gamma 1) (smallDraws.rho 1) (smallDraws.nu 1)
    (smallDraws.rho_coprime 1) <;> rfl

end Round1

namespace Round2

variable {r2 r2' : Round2 P Pt}

theorem Reachable.decryptSigned_dHat (h : r2.Reachable) {«from» : ℕ} {msg : Round2Direct Pt}
    (hp : ProofsVerify gen r2 «from» msg)
    (hlo : -(r2.context.keyShare.paillierSk.modulus : ℤ) <
      2 * (msg.psiHat.x * r2.context.ephemeralScalarShare.val + -msg.psiHat.y))
    (hhi : 2 * (msg.psiHat.x * r2.context.ephemeralScalarShare.val + -msg.psiHat.y) ≤
      r2.context.keyShare.paillierSk.modulus) :
    r2.context.keyShare.paillierSk.decryptSigned msg.dHat =
      msg.psiHat.x * r2.context.ephemeralScalarShare.val + -msg.psiHat.y := by
  obtain ⟨-, hpsiHat, -⟩ := hp
  exact r2.context.keyShare.paillierSk.decryptSigned_of_encrypts
    (AffGProof.encrypts_of_verify gen hpsiHat h.encrypts_kCiphertext) hlo hhi

include hP in
/-- An honest party accepts an honest peer's Round 2 message, with the shares it meant. -/
theorem Reachable.verifyDirectMessage_makeDirectMessage (h : r2.Reachable) (h' : r2'.Reachable)
    (hks : r2.context.keyShare.Issued gen n x sk) (hks' : r2'.context.keyShare.Issued gen n x sk)
    (hK : r2'.kCiphertexts r2.context.keyShare.index = r2.kCiphertexts r2.context.keyShare.index)
    (hG : r2.gCiphertexts r2'.context.keyShare.index =
      r2'.gCiphertexts r2'.context.keyShare.index)
    {beta betaHat : Signed} (hbeta : beta.BoundedBits P.lpBound)
    (hbetaHat : betaHat.BoundedBits P.lpBound) {r s hatR hatS : ℕ}
    (hr : Nat.Coprime r r2'.context.keyShare.paillierSk.modulus)
    (hs : Nat.Coprime s r2.context.keyShare.paillierSk.modulus)
    (hhatR : Nat.Coprime hatR r2'.context.keyShare.paillierSk.modulus)
    (hhatS : Nat.Coprime hatS r2.context.keyShare.paillierSk.modulus) :
    ∃ p, r2.verifyDirectMessage gen r2'.context.keyShare.index
        (r2'.makeDirectMessage gen r2.context.keyShare.index beta betaHat r s hatR hatS).1 =
          some (.ok p) ∧
      p.gamma = r2'.context.gamma • gen ∧
      p.alpha = ⟨r2'.context.gamma.val * r2.context.ephemeralScalarShare.val + -beta.value,
        P.alphaBound⟩ ∧
      p.alphaHat = r2'.context.keyShare.secretShare * r2.context.ephemeralScalarShare -
        (betaHat.value : ZMod P.curveOrder) := by
  have hy (b : Signed) (hb : b.BoundedBits P.lpBound) :
      b.value.natAbs ≤ 2 ^ (P.lpBound + P.epsBound) :=
    hb.2.trans (Nat.pow_le_pow_right (by norm_num) (by omega))
  obtain ⟨-, -, hKi, -⟩ := h.own
  obtain ⟨-, hnu, -, hGj⟩ := h'.own
  have hpki : (r2'.context.keyShare.publicAux r2.context.keyShare.index).paillierPk =
      r2.context.keyShare.paillierSk.modulus := by rw [hks'.paillierPk_eq, hks.paillierSk_eq]
  have hpkj : (r2.context.keyShare.publicAux r2'.context.keyShare.index).paillierPk =
      r2'.context.keyShare.paillierSk.modulus := by rw [hks.paillierPk_eq, hks'.paillierSk_eq]
  have hXj : r2.context.keyShare.publicShares r2'.context.keyShare.index =
      r2'.context.keyShare.secretShare • gen := by rw [hks.publicShares_eq, hks'.secretShare_eq]
  have hp : ProofsVerify gen r2 r2'.context.keyShare.index
      (r2'.makeDirectMessage gen r2.context.keyShare.index beta betaHat r s hatR hatS).1 := by
    simp only [ProofsVerify, makeDirectMessage, hpki, hpkj, hXj, hK, hG, hGj]
    exact ⟨AffGProof.verify_honest gen (Draws.natAbs_val_le hP _) (hy _ hbeta) hs hr
        (by rw [Draws.intCast_val hP]),
      AffGProof.verify_honest gen (Draws.natAbs_val_le hP _) (hy _ hbetaHat) hhatS hhatR
        (by rw [Draws.intCast_val hP]),
      LogStarProof.verify_honest gen (Draws.natAbs_val_le hP _) hnu (by rw [Draws.intCast_val hP])⟩
  have hd := Draws.two_mul_natAbs_affine_lt hP r2.context.keyShare.paillierSk r2'.context.gamma
    r2.context.ephemeralScalarShare hbeta.2
  have hdHat := Draws.two_mul_natAbs_affine_lt hP r2.context.keyShare.paillierSk
    r2'.context.keyShare.secretShare r2.context.ephemeralScalarShare hbetaHat.2
  have hα := h.decryptSigned_d gen hp (by simp only [makeDirectMessage]; omega)
    (by simp only [makeDirectMessage]; omega)
  have hαHat := h.decryptSigned_dHat gen hp (by simp only [makeDirectMessage]; omega)
    (by simp only [makeDirectMessage]; omega)
  refine ⟨_, verifyDirectMessage_of_proofs gen hp ?_, rfl, by rw [hα]; rfl, ?_⟩
  · rw [hα]
    exact Draws.natAbs_affine_lt_alphaBound hP _ _ hbeta.2
  · rw [hαHat]
    simp only [makeDirectMessage, Int.cast_add, Int.cast_mul, Int.cast_neg, Draws.intCast_val hP,
      sub_eq_add_neg]

theorem verifyDirectMessage_makeDirectMessage_small :
    ∃ p, (smallDraws.round2 0).verifyDirectMessage 1 1 (smallDraws.direct2 1 0).1 = some (.ok p) ∧
      p.gamma = smallDraws.gamma 1 • 1 ∧
      p.alpha = ⟨(smallDraws.gamma 1).val * (smallDraws.k 0).val + -(smallDraws.beta 1 0).value,
        SchemeParams.small.alphaBound⟩ ∧
      p.alphaHat = (smallShares.share 1).secretShare * smallDraws.k 0 -
        ((smallDraws.betaHat 1 0).value : ZMod SchemeParams.small.curveOrder) :=
  Reachable.verifyDirectMessage_makeDirectMessage 1 SchemeParams.small_valid
    (smallDraws.reachable_round2 SchemeParams.small_valid 0)
    (smallDraws.reachable_round2 SchemeParams.small_valid 1)
    (KeyShares.issued 1 smallShares (by decide)) (KeyShares.issued 1 smallShares (by decide)) rfl rfl
    (smallDraws.beta_bounded 1 0) (smallDraws.betaHat_bounded 1 0) (smallDraws.r_coprime 1 0)
    (smallDraws.s_coprime 1 0) (smallDraws.hatR_coprime 1 0) (smallDraws.hatS_coprime 1 0)

/-- No peer can make Round 2's finalization panic while `δ_i`'s bound fits the width. -/
theorem finalizeToNextRound_of_accepted {msgs : ℕ → Round2Direct Pt}
    {payloads : ℕ → Round2Payload P Pt}
    (hne : holeRange r2.context.keyShare.numParties r2.context.keyShare.index ≠ [])
    (hrecv : ∀ j ∈ holeRange r2.context.keyShare.numParties r2.context.keyShare.index,
      r2.verifyDirectMessage gen j (msgs j) = some (.ok (payloads j)))
    {beta betaHat : ℕ → Signed} (r s hatR hatS : ℕ → ℕ)
    (hbeta : ∀ j, (beta j).BoundedBits P.lpBound)
    (hbetaHat : ∀ j, (betaHat j).BoundedBits P.lpBound)
    (hfit :
      P.deltaBound (holeRange r2.context.keyShare.numParties r2.context.keyShare.index).length <
        P.modulusBits) :
    r2.finalizeToNextRound gen payloads (fun j =>
        (r2.makeDirectMessage gen j (beta j) (betaHat j) (r j) (s j) (hatR j) (hatS j)).2) =
      some (r2.nextRound gen payloads fun j =>
        (r2.makeDirectMessage gen j (beta j) (betaHat j) (r j) (s j) (hatR j) (hatS j)).2) :=
  finalizeToNextRound_eq_some gen hne
    (fun j hj => by rw [(verifyDirectMessage_eq_ok gen (hrecv j hj)).2.2])
    (fun j _ => (hbeta j).1) (fun j _ => (hbetaHat j).1) hfit

theorem finalizeToNextRound_of_accepted_small :
    (smallDraws.round2 0).finalizeToNextRound 1 (smallDraws.payload2 0)
        (fun j => (smallDraws.direct2 0 j).2) =
      some ((smallDraws.round2 0).nextRound 1 (smallDraws.payload2 0) fun j =>
        (smallDraws.direct2 0 j).2) :=
  finalizeToNextRound_of_accepted 1 (by decide)
    (fun j _ => smallDraws.verifyDirectMessage_direct2 SchemeParams.small_valid 0 j)
    (smallDraws.r 0) (smallDraws.s 0) (smallDraws.hatR 0) (smallDraws.hatS 0)
    (smallDraws.beta_bounded 0) (smallDraws.betaHat_bounded 0) (by decide)

end Round2

namespace Round3

variable {r3 r3' : Round3 P Pt}

theorem Reachable.bigDelta_eq (h : r3.Reachable gen) :
    r3.bigDelta = r3.context.ephemeralScalarShare • r3.bigGamma := by
  obtain @⟨r2, _, _, _, _, _, _, _, _, _, _, _, _, _, h⟩ := h
  rw [(Round2.finalizeToNextRound_bigGamma gen h).2, (Round2.finalizeToNextRound_spec gen h).1]

include hP hslack in
theorem Reachable.bigGamma_eq_sum (h : r3.Reachable gen) (hks : r3.context.keyShare.Issued gen n x sk) :
    r3.bigGamma = ∑ m ∈ Finset.range n,
      ((sk m).decryptSigned (r3.gCiphertexts m) : ZMod P.curveOrder) • gen := by
  obtain @⟨r2, h2, msgs, payloads, hrecv, _, _, _, _, _, _, _, _, _, h⟩ := h
  obtain ⟨hctx, -, hG, -⟩ := Round2.finalizeToNextRound_spec gen h
  rw [(Round2.finalizeToNextRound_bigGamma gen h).1, hG]
  rw [hctx] at hks
  have hpeer : ∀ m ∈ holeRange r2.context.keyShare.numParties r2.context.keyShare.index,
      (payloads m).gamma = ((sk m).decryptSigned (r2.gCiphertexts m) : ZMod P.curveOrder) • gen := by
    intro m hm
    obtain ⟨⟨-, -, hlog⟩, -, hp⟩ := Round2.verifyDirectMessage_eq_ok gen (hrecv m hm)
    rw [hks.paillierPk_eq] at hlog
    rw [hp]
    exact LogStarProof.eq_smul_decryptSigned hslack hlog
  obtain ⟨-, hnu, -, hGown⟩ := h2.own
  rw [hks.paillierSk_eq] at hnu hGown
  have hown : r2.context.gamma • gen = ((sk r2.context.keyShare.index).decryptSigned
      (r2.gCiphertexts r2.context.keyShare.index) : ZMod P.curveOrder) • gen := by
    rw [hGown, intCast_decryptSigned_newWithRandomizer hP hslack _ _ hnu]
  rw [List.map_congr_left hpeer, hown, hks.numParties_eq, add_comm]
  exact add_sum_holeRange (fun m => ((sk m).decryptSigned (r2.gCiphertexts m) : ZMod P.curveOrder) • gen)
    hks.index_lt

include hP hslack in
/-- Honest parties holding the same `G_m` compute the same `Γ`, whatever the others send. -/
theorem Reachable.bigGamma_agree (h : r3.Reachable gen) (h' : r3'.Reachable gen)
    (hks : r3.context.keyShare.Issued gen n x sk) (hks' : r3'.context.keyShare.Issued gen n x sk)
    (hG : ∀ m < n, r3.gCiphertexts m = r3'.gCiphertexts m) :
    r3.bigGamma = r3'.bigGamma := by
  rw [h.bigGamma_eq_sum gen hP hslack hks, h'.bigGamma_eq_sum gen hP hslack hks']
  exact Finset.sum_congr rfl fun m hm => by rw [hG m (Finset.mem_range.1 hm)]

theorem bigGamma_agree_small : (smallDraws.round3 0).bigGamma = (smallDraws.round3 1).bigGamma :=
  Reachable.bigGamma_agree 1 SchemeParams.small_valid (by decide)
    (smallDraws.reachable_round3 SchemeParams.small_valid le_rfl (by decide) (by decide))
    (smallDraws.reachable_round3 SchemeParams.small_valid le_rfl (by decide) (by decide))
    (KeyShares.issued 1 smallShares (by decide)) (KeyShares.issued 1 smallShares (by decide))
    fun _ _ => rfl

include hP hslack in
/-- An honest party accepts the Round 3 message of every peer that follows the protocol. -/
theorem Reachable.accepts_makeDirectMessage (h : r3.Reachable gen) (h' : r3'.Reachable gen)
    (hks : r3.context.keyShare.Issued gen n x sk) (hks' : r3'.context.keyShare.Issued gen n x sk)
    (hK : r3.kCiphertexts r3'.context.keyShare.index = r3'.kCiphertexts r3'.context.keyShare.index)
    (hG : ∀ m < n, r3.gCiphertexts m = r3'.gCiphertexts m) :
    r3.verifyDirectMessage r3'.context.keyShare.index r3'.makeDirectMessage =
      .ok ⟨r3'.delta.toScalar, r3'.bigDelta⟩ := by
  obtain ⟨hrho, -, hKj, -⟩ := h'.spec
  have hΓ : r3.bigGamma = r3'.bigGamma := by
    rw [h.bigGamma_eq_sum gen hP hslack hks, h'.bigGamma_eq_sum gen hP hslack hks']
    exact Finset.sum_congr rfl fun m hm => by rw [hG m (Finset.mem_range.1 hm)]
  apply verifyDirectMessage_of_verify
  dsimp only [makeDirectMessage]
  rw [hks.paillierPk_eq, ← hks'.paillierSk_eq, hK, hKj, hΓ, h'.bigDelta_eq]
  exact LogStarProof.verify_honest _ (Draws.natAbs_val_le hP _) hrho
    (by rw [Draws.intCast_val hP])

theorem accepts_makeDirectMessage_small :
    (smallDraws.round3 0).verifyDirectMessage 1 (smallDraws.round3 1).makeDirectMessage =
      .ok ⟨(smallDraws.round3 1).delta.toScalar, (smallDraws.round3 1).bigDelta⟩ :=
  Reachable.accepts_makeDirectMessage 1 SchemeParams.small_valid (by decide)
    (smallDraws.reachable_round3 SchemeParams.small_valid le_rfl (by decide) (by decide))
    (smallDraws.reachable_round3 SchemeParams.small_valid le_rfl (by decide) (by decide))
    (KeyShares.issued 1 smallShares (by decide)) (KeyShares.issued 1 smallShares (by decide)) rfl
    fun _ _ => rfl

include hP hslack in
theorem Reachable.combinedBigDelta_eq_sum (h : r3.Reachable gen)
    (hks : r3.context.keyShare.Issued gen n x sk) {msgs : ℕ → Round3Direct P Pt}
    {payloads : ℕ → Round3Payload P Pt}
    (hrecv : ∀ j ∈ holeRange r3.context.keyShare.numParties r3.context.keyShare.index,
      r3.verifyDirectMessage j (msgs j) = .ok (payloads j)) :
    r3.combinedBigDelta payloads = (∑ m ∈ Finset.range n,
      ((sk m).decryptSigned (r3.kCiphertexts m) : ZMod P.curveOrder)) • r3.bigGamma := by
  have hpeer : ∀ j ∈ holeRange r3.context.keyShare.numParties r3.context.keyShare.index,
      (payloads j).bigDelta =
        ((sk j).decryptSigned (r3.kCiphertexts j) : ZMod P.curveOrder) • r3.bigGamma := by
    intro j hj
    obtain ⟨hlog, hp⟩ := verifyDirectMessage_eq_ok r3 (hrecv j hj)
    rw [hks.paillierPk_eq] at hlog
    rw [hp]
    exact LogStarProof.eq_smul_decryptSigned hslack hlog
  obtain ⟨hrho, -, hKi, -⟩ := h.spec
  rw [hks.paillierSk_eq] at hrho hKi
  have hown : r3.bigDelta = ((sk r3.context.keyShare.index).decryptSigned
      (r3.kCiphertexts r3.context.keyShare.index) : ZMod P.curveOrder) • r3.bigGamma := by
    rw [h.bigDelta_eq, hKi, intCast_decryptSigned_newWithRandomizer hP hslack _ _ hrho]
  rw [combinedBigDelta, List.map_congr_left hpeer, hown, hks.numParties_eq, add_comm,
    Finset.sum_smul]
  exact add_sum_holeRange (fun m =>
    ((sk m).decryptSigned (r3.kCiphertexts m) : ZMod P.curveOrder) • r3.bigGamma) hks.index_lt

include hP hslack in
theorem Reachable.nonce_eq_sum [Fact P.curveOrder.Prime] (h : r3.Reachable gen)
    (hks : r3.context.keyShare.Issued gen n x sk) {msgs : ℕ → Round3Direct P Pt}
    {payloads : ℕ → Round3Payload P Pt}
    (hrecv : ∀ j ∈ holeRange r3.context.keyShare.numParties r3.context.keyShare.index,
      r3.verifyDirectMessage j (msgs j) = .ok (payloads j))
    {rhoMul : ℕ} {data : PresigningData P Pt}
    (hres : r3.finalizeToResult gen payloads rhoMul = some (.ok data)) :
    data.nonce = (∑ m ∈ Finset.range n,
      ((sk m).decryptSigned (r3.kCiphertexts m) : ZMod P.curveOrder))⁻¹ • gen := by
  obtain ⟨hc, h0, hnonce⟩ := finalizeToResult_eq_ok gen r3 hres
  rw [h.combinedBigDelta_eq_sum gen hP hslack hks hrecv, h.bigGamma_eq_sum gen hP hslack hks,
    ← Finset.sum_smul] at hc
  rw [hnonce, h.bigGamma_eq_sum gen hP hslack hks, ← Finset.sum_smul]
  rcases eq_or_ne gen 0 with rfl | hgen
  · simp only [smul_zero]
  have hδ := smul_left_injective (ZMod P.curveOrder) hgen (hc.trans (smul_smul _ _ _))
  rw [hδ] at h0 ⊢
  rw [smul_smul, mul_inv, mul_assoc, inv_mul_cancel₀ (right_ne_zero_of_mul h0), mul_one]

include hP hslack in
/-- Honest parties that finish presigning output the same nonce, whatever the others send. -/
theorem Reachable.nonce_agree [Fact P.curveOrder.Prime] (h : r3.Reachable gen)
    (h' : r3'.Reachable gen) (hks : r3.context.keyShare.Issued gen n x sk)
    (hks' : r3'.context.keyShare.Issued gen n x sk)
    (hK : ∀ m < n, r3.kCiphertexts m = r3'.kCiphertexts m)
    {msgs msgs' : ℕ → Round3Direct P Pt} {payloads payloads' : ℕ → Round3Payload P Pt}
    (hrecv : ∀ j ∈ holeRange r3.context.keyShare.numParties r3.context.keyShare.index,
      r3.verifyDirectMessage j (msgs j) = .ok (payloads j))
    (hrecv' : ∀ j ∈ holeRange r3'.context.keyShare.numParties r3'.context.keyShare.index,
      r3'.verifyDirectMessage j (msgs' j) = .ok (payloads' j))
    {rhoMul rhoMul' : ℕ} {data data' : PresigningData P Pt}
    (hres : r3.finalizeToResult gen payloads rhoMul = some (.ok data))
    (hres' : r3'.finalizeToResult gen payloads' rhoMul' = some (.ok data')) :
    data.nonce = data'.nonce := by
  rw [h.nonce_eq_sum gen hP hslack hks hrecv hres, h'.nonce_eq_sum gen hP hslack hks' hrecv' hres']
  exact congrArg (·⁻¹ • gen) (Finset.sum_congr rfl fun m hm => by
    rw [hK m (Finset.mem_range.1 hm)])

theorem nonce_agree_small :
    (smallDraws.presigningData 0).nonce = (smallDraws.presigningData 1).nonce := by
  have hk : ∑ i ∈ Finset.range 2, smallDraws.k i ≠ 0 := by decide
  have hγ : ∑ i ∈ Finset.range 2, smallDraws.gamma i ≠ 0 := by decide
  haveI := SchemeParams.small_prime
  exact Reachable.nonce_agree 1 SchemeParams.small_valid (by decide)
    (smallDraws.reachable_round3 SchemeParams.small_valid le_rfl (by decide) (by decide))
    (smallDraws.reachable_round3 SchemeParams.small_valid le_rfl (by decide) (by decide))
    (KeyShares.issued 1 smallShares (by decide)) (KeyShares.issued 1 smallShares (by decide))
    (fun _ _ => rfl)
    (fun j hj => smallDraws.verifyDirectMessage_round3 SchemeParams.small_valid (by decide)
      (mem_holeRange.1 hj).1)
    (fun j hj => smallDraws.verifyDirectMessage_round3 SchemeParams.small_valid (by decide)
      (mem_holeRange.1 hj).1)
    (smallDraws.finalizeToResult_round3 SchemeParams.small_valid hk hγ (by decide) 1)
    (smallDraws.finalizeToResult_round3 SchemeParams.small_valid hk hγ (by decide) 1)

end Round3

end Adversarial

end Synedrion.Protocols.Presigning
