import Synedrion.Protocols.Presigning
import Mathlib.Algebra.Lie.OfAssociative

/-! An honest run of presigning among `n` parties. -/

namespace Synedrion.Protocols.Presigning

open Synedrion.Paillier Synedrion.Paillier.Ciphertext Synedrion.Ideal

variable {P : SchemeParams} {Pt : Type} [AddCommGroup Pt] [Module (ZMod P.curveOrder) Pt]
  [DecidableEq Pt]

structure KeyShares (gen : Pt) (n : ℕ) where
  share : ℕ → KeyShare P Pt
  index_eq : ∀ i, (share i).index = i
  numParties_eq : ∀ i, (share i).numParties = n
  publicShares_eq : ∀ i j, (share i).publicShares j = (share j).secretShare • gen
  paillierPk_eq : ∀ i j, ((share i).publicAux j).paillierPk = (share j).paillierSk.modulus

structure Draws {gen : Pt} {n : ℕ} (shares : KeyShares (P := P) gen n) where
  k : ℕ → ZMod P.curveOrder
  gamma : ℕ → ZMod P.curveOrder
  rho : ℕ → ℕ
  nu : ℕ → ℕ
  beta : ℕ → ℕ → Signed
  betaHat : ℕ → ℕ → Signed
  r : ℕ → ℕ → ℕ
  s : ℕ → ℕ → ℕ
  hatR : ℕ → ℕ → ℕ
  hatS : ℕ → ℕ → ℕ
  rho_coprime : ∀ i, Nat.Coprime (rho i) (shares.share i).paillierSk.modulus
  nu_coprime : ∀ i, Nat.Coprime (nu i) (shares.share i).paillierSk.modulus
  beta_bounded : ∀ i j, (beta i j).BoundedBits P.lpBound
  betaHat_bounded : ∀ i j, (betaHat i j).BoundedBits P.lpBound
  r_coprime : ∀ i j, Nat.Coprime (r i j) (shares.share i).paillierSk.modulus
  s_coprime : ∀ i j, Nat.Coprime (s i j) (shares.share j).paillierSk.modulus
  hatR_coprime : ∀ i j, Nat.Coprime (hatR i j) (shares.share i).paillierSk.modulus
  hatS_coprime : ∀ i j, Nat.Coprime (hatS i j) (shares.share j).paillierSk.modulus

namespace Draws

variable {gen : Pt} {n : ℕ} {shares : KeyShares (P := P) gen n} (d : Draws shares)

def round1 (i : ℕ) : Round1 P Pt :=
  Round1.new (shares.share i) (d.k i) (d.gamma i) (d.rho i) (d.nu i)

def round2 (i : ℕ) : Round2 P Pt :=
  ⟨(d.round1 i).context, fun j => (d.round1 j).kCiphertext, fun j => (d.round1 j).gCiphertext⟩

def direct2 (j i : ℕ) : Round2Direct Pt × Round2Artefact :=
  (d.round2 j).makeDirectMessage gen i (d.beta j i) (d.betaHat j i) (d.r j i) (d.s j i)
    (d.hatR j i) (d.hatS j i)

def payload2 (i j : ℕ) : Round2Payload P Pt :=
  let sk := (shares.share i).paillierSk
  let msg := (d.direct2 j i).1
  ⟨msg.gamma, ⟨sk.decryptSigned msg.d, P.alphaBound⟩, (sk.decryptSigned msg.dHat : ZMod P.curveOrder),
    msg.d, msg.dHat⟩

def round3 (i : ℕ) : Round3 P Pt :=
  (d.round2 i).nextRound gen (d.payload2 i) fun j => (d.direct2 i j).2

def payload3 (j : ℕ) : Round3Payload P Pt :=
  ⟨(d.round3 j).makeDirectMessage.delta, (d.round3 j).makeDirectMessage.bigDelta⟩

section Bounds

variable (hP : P.Valid)
include hP

theorem intCast_val (x : ZMod P.curveOrder) : ((x.val : ℤ) : ZMod P.curveOrder) = x := by
  haveI : NeZero P.curveOrder := ⟨hP.order_pos.ne'⟩
  rw [Int.cast_natCast, ZMod.natCast_zmod_val]

theorem natAbs_val_le (x : ZMod P.curveOrder) :
    ((x.val : ℤ)).natAbs ≤ 2 ^ (P.lBound + P.epsBound) := by
  haveI : NeZero P.curveOrder := ⟨hP.order_pos.ne'⟩
  have h1 := ZMod.val_lt x
  have h2 := hP.order_le_lBound
  have h3 : 2 ^ P.lBound ≤ 2 ^ (P.lBound + P.epsBound) := Nat.pow_le_pow_right (by norm_num) (by omega)
  rw [Int.natAbs_ofNat]
  omega

theorem val_mul_val_lt (a b : ZMod P.curveOrder) : a.val * b.val < 2 ^ (2 * P.lBound) := by
  haveI : NeZero P.curveOrder := ⟨hP.order_pos.ne'⟩
  calc a.val * b.val < P.curveOrder * P.curveOrder := Nat.mul_lt_mul'' (ZMod.val_lt a) (ZMod.val_lt b)
    _ ≤ 2 ^ P.lBound * 2 ^ P.lBound := Nat.mul_le_mul hP.order_le_lBound hP.order_le_lBound
    _ = 2 ^ (2 * P.lBound) := by rw [← pow_add, two_mul]

theorem natAbs_affine_lt_alphaBound (a b : ZMod P.curveOrder) {β : ℤ}
    (hβ : β.natAbs ≤ 2 ^ P.lpBound) : ((a.val : ℤ) * b.val + -β).natAbs < 2 ^ P.alphaBound := by
  have hab := val_mul_val_lt hP a b
  have h1 : 2 ^ (2 * P.lBound) ≤ 2 ^ max (2 * P.lBound) P.lpBound :=
    Nat.pow_le_pow_right (by norm_num) (le_max_left _ _)
  have h2 : 2 ^ P.lpBound ≤ 2 ^ max (2 * P.lBound) P.lpBound :=
    Nat.pow_le_pow_right (by norm_num) (le_max_right _ _)
  have h3 : ((a.val : ℤ) * b.val) = ((a.val * b.val : ℕ) : ℤ) := by push_cast; rfl
  rw [SchemeParams.alphaBound, pow_succ, h3]
  omega

theorem two_mul_natAbs_affine_lt (sk : SecretKey P.primeBits) (a b : ZMod P.curveOrder) {β : ℤ}
    (hβ : β.natAbs ≤ 2 ^ P.lpBound) : 2 * ((a.val : ℤ) * b.val + -β).natAbs < sk.modulus := by
  haveI : NeZero P.curveOrder := ⟨hP.order_pos.ne'⟩
  have hab : a.val * b.val < P.curveOrder ^ 2 := by
    rw [sq]
    exact Nat.mul_lt_mul'' (ZMod.val_lt a) (ZMod.val_lt b)
  have hroom := hP.decrypt_room
  have hbits : 1 ≤ P.modulusBits := by
    have := sk.two_lt_primeBits
    unfold SchemeParams.modulusBits
    omega
  have hm := Nat.mul_le_mul_right (2 ^ P.alphaBound + 2 ^ P.lpBound) hbits
  have hN := sk.two_mul_two_pow_le_modulus
  have := Nat.two_pow_pos P.alphaBound
  have h3 : ((a.val : ℤ) * b.val) = ((a.val * b.val : ℕ) : ℤ) := by push_cast; rfl
  rw [h3]
  omega

end Bounds

omit [DecidableEq Pt] in
theorem round1_finalize (hP : P.Valid) (i : ℕ) :
    (d.round1 i).finalizeToNextRound (fun j => (d.round1 j).makeBroadcast)
      (fun j => (d.round1 j).makeDirectMessage) = .ok (d.round2 i) := by
  rw [Round1.finalizeToNextRound_eq_ok_iff]
  refine ⟨fun j _ => ?_, ?_⟩
  · show EncProof.verify P ⟨(d.k j).val, d.rho j⟩ ((shares.share i).publicAux j).paillierPk
      (newWithRandomizer (shares.share j).paillierSk.modulus (d.k j).val (d.rho j)) = true
    rw [shares.paillierPk_eq]
    exact EncProof.verify_honest (natAbs_val_le hP _) (d.rho_coprime j)
  · have hidx : (d.round1 i).context.keyShare.index = i := shares.index_eq i
    rw [hidx]
    unfold round2
    congr 1 <;> funext j <;> split_ifs with h <;> simp only [h, Round1.makeBroadcast]

omit [DecidableEq Pt] in
theorem encrypts_direct2_d (i j : ℕ) :
    Encrypts (shares.share i).paillierSk.modulus (d.direct2 j i).1.d
      ((d.gamma j).val * (d.k i).val + -(d.beta j i).value) := by
  simp only [direct2, Round2.makeDirectMessage, round2, round1, Round1.new, shares.paillierPk_eq]
  exact ((Encrypts.newWithRandomizer _ ((ZMod.isUnit_iff_coprime _ _).2
    (d.rho_coprime i))).homomorphicMul _).homomorphicAdd
      (Encrypts.newWithRandomizer _ ((ZMod.isUnit_iff_coprime _ _).2 (d.s_coprime j i)))

omit [DecidableEq Pt] in
theorem encrypts_direct2_dHat (i j : ℕ) :
    Encrypts (shares.share i).paillierSk.modulus (d.direct2 j i).1.dHat
      ((shares.share j).secretShare.val * (d.k i).val + -(d.betaHat j i).value) := by
  simp only [direct2, Round2.makeDirectMessage, round2, round1, Round1.new, shares.paillierPk_eq]
  exact ((Encrypts.newWithRandomizer _ ((ZMod.isUnit_iff_coprime _ _).2
    (d.rho_coprime i))).homomorphicMul _).homomorphicAdd
      (Encrypts.newWithRandomizer _ ((ZMod.isUnit_iff_coprime _ _).2 (d.hatS_coprime j i)))

omit [DecidableEq Pt] in
theorem decryptSigned_direct2_d (hP : P.Valid) (i j : ℕ) :
    (shares.share i).paillierSk.decryptSigned (d.direct2 j i).1.d =
      (d.gamma j).val * (d.k i).val + -(d.beta j i).value := by
  have h := two_mul_natAbs_affine_lt hP (shares.share i).paillierSk (d.gamma j) (d.k i)
    (d.beta_bounded j i).2
  exact (shares.share i).paillierSk.decryptSigned_of_encrypts (d.encrypts_direct2_d i j)
    (by omega) (by omega)

omit [DecidableEq Pt] in
theorem decryptSigned_direct2_dHat (hP : P.Valid) (i j : ℕ) :
    (shares.share i).paillierSk.decryptSigned (d.direct2 j i).1.dHat =
      (shares.share j).secretShare.val * (d.k i).val + -(d.betaHat j i).value := by
  have h := two_mul_natAbs_affine_lt hP (shares.share i).paillierSk (shares.share j).secretShare
    (d.k i) (d.betaHat_bounded j i).2
  exact (shares.share i).paillierSk.decryptSigned_of_encrypts (d.encrypts_direct2_dHat i j)
    (by omega) (by omega)

theorem proofsVerify_direct2 (hP : P.Valid) (i j : ℕ) :
    Round2.ProofsVerify gen (d.round2 i) j (d.direct2 j i).1 := by
  have hy (β : Signed) (hβ : β.BoundedBits P.lpBound) :
      β.value.natAbs ≤ 2 ^ (P.lpBound + P.epsBound) :=
    hβ.2.trans (Nat.pow_le_pow_right (by norm_num) (by omega))
  simp only [Round2.ProofsVerify, direct2, Round2.makeDirectMessage, round2, round1, Round1.new,
    shares.paillierPk_eq, shares.publicShares_eq, shares.index_eq]
  exact ⟨AffGProof.verify_honest gen (natAbs_val_le hP _) (hy _ (d.beta_bounded j i))
      (d.s_coprime j i) (d.r_coprime j i) (by rw [intCast_val hP]),
    AffGProof.verify_honest gen (natAbs_val_le hP _) (hy _ (d.betaHat_bounded j i))
      (d.hatS_coprime j i) (d.hatR_coprime j i) (by rw [intCast_val hP]),
    LogStarProof.verify_honest gen (natAbs_val_le hP _) (d.nu_coprime j) (by rw [intCast_val hP])⟩

theorem verifyDirectMessage_direct2 (hP : P.Valid) (i j : ℕ) :
    (d.round2 i).verifyDirectMessage gen j (d.direct2 j i).1 = some (.ok (d.payload2 i j)) := by
  have hα : ((shares.share i).paillierSk.decryptSigned (d.direct2 j i).1.d).natAbs <
      2 ^ P.alphaBound := by
    rw [d.decryptSigned_direct2_d hP]
    exact natAbs_affine_lt_alphaBound hP _ _ (d.beta_bounded j i).2
  exact Round2.verifyDirectMessage_of_proofs gen (d.proofsVerify_direct2 hP i j) hα

omit [DecidableEq Pt] in
theorem peers_round2 (i : ℕ) :
    holeRange (d.round2 i).context.keyShare.numParties (d.round2 i).context.keyShare.index =
      holeRange n i := by
  show holeRange (shares.share i).numParties (shares.share i).index = _
  rw [shares.numParties_eq, shares.index_eq]

omit [DecidableEq Pt] in
theorem peers_round3 (i : ℕ) :
    holeRange (d.round3 i).context.keyShare.numParties (d.round3 i).context.keyShare.index =
      holeRange n i :=
  d.peers_round2 i

omit [DecidableEq Pt] in
theorem round2_finalize (hn : 2 ≤ n) (hfit : P.deltaBound (n - 1) < P.modulusBits) {i : ℕ}
    (hi : i < n) :
    (d.round2 i).finalizeToNextRound gen (d.payload2 i) (fun j => (d.direct2 i j).2) =
      some (d.round3 i) :=
  Round2.finalizeToNextRound_eq_some gen (by rw [d.peers_round2]; exact holeRange_ne_nil hi hn)
    (fun _ _ => rfl) (fun j _ => (d.beta_bounded i j).1) (fun j _ => (d.betaHat_bounded i j).1)
    (by rw [d.peers_round2, length_holeRange hi]; exact hfit)

omit [DecidableEq Pt] in
theorem delta_round3 (hP : P.Valid) (i : ℕ) :
    (d.round3 i).delta.value = (d.gamma i).val * (d.k i).val +
      ∑ j ∈ (Finset.range n).erase i, ((d.gamma j).val * (d.k i).val + -(d.beta j i).value) +
      ∑ j ∈ (Finset.range n).erase i, (d.beta i j).value := by
  simp only [round3, Round2.nextRound, d.peers_round2, sum_holeRange, payload2,
    d.decryptSigned_direct2_d hP]
  rfl

omit [DecidableEq Pt] in
theorem sum_delta_round3 (hP : P.Valid) :
    ∑ i ∈ Finset.range n, (d.round3 i).delta.value =
      (∑ i ∈ Finset.range n, ((d.gamma i).val : ℤ)) * ∑ i ∈ Finset.range n, ((d.k i).val : ℤ) := by
  have hpair := sum_sum_holeRange_sub (fun i j => (d.beta i j).value) n
  simp only [sum_holeRange] at hpair
  have hi : ∀ i ∈ Finset.range n, (d.round3 i).delta.value =
      ∑ j ∈ Finset.range n, ((d.gamma j).val : ℤ) * (d.k i).val +
        ∑ j ∈ (Finset.range n).erase i, ((d.beta i j).value - (d.beta j i).value) := by
    intro i hi
    rw [d.delta_round3 hP, ← Finset.add_sum_erase _ _ hi, Finset.sum_sub_distrib,
      Finset.sum_add_distrib, Finset.sum_neg_distrib]
    ring
  rw [Finset.sum_congr rfl hi, Finset.sum_add_distrib, hpair, add_zero, Finset.sum_mul_sum]
  exact Finset.sum_comm

omit [DecidableEq Pt] in
theorem bigGamma_round3 {i : ℕ} (hi : i < n) :
    (d.round3 i).bigGamma = (∑ j ∈ Finset.range n, d.gamma j) • gen := by
  simp only [round3, Round2.nextRound, d.peers_round2]
  rw [Finset.sum_smul, ← add_sum_holeRange (fun j => d.gamma j • gen) hi]
  exact add_comm _ _

theorem verifyDirectMessage_round3 (hP : P.Valid) {i j : ℕ} (hi : i < n) (hj : j < n) :
    (d.round3 i).verifyDirectMessage j (d.round3 j).makeDirectMessage = .ok (d.payload3 j) := by
  apply Round3.verifyDirectMessage_of_verify
  show LogStarProof.verify P ⟨(d.k j).val, d.rho j⟩ ((shares.share i).publicAux j).paillierPk
    (newWithRandomizer (shares.share j).paillierSk.modulus (d.k j).val (d.rho j))
    (d.round3 i).bigGamma (d.k j • (d.round3 j).bigGamma) = true
  rw [shares.paillierPk_eq, d.bigGamma_round3 hi, d.bigGamma_round3 hj]
  exact LogStarProof.verify_honest _ (natAbs_val_le hP _) (d.rho_coprime j) (by rw [intCast_val hP])

omit [DecidableEq Pt] in
theorem combinedDelta_round3 (hP : P.Valid) {i : ℕ} (hi : i < n) :
    (d.round3 i).combinedDelta d.payload3 =
      (∑ j ∈ Finset.range n, d.gamma j) * ∑ j ∈ Finset.range n, d.k j := by
  have h : (d.round3 i).combinedDelta d.payload3 =
      ((∑ j ∈ Finset.range n, (d.round3 j).delta.value : ℤ) : ZMod P.curveOrder) := by
    unfold Round3.combinedDelta
    rw [d.peers_round3, Int.cast_sum,
      ← add_sum_holeRange (fun j => ((d.round3 j).delta.value : ZMod P.curveOrder)) hi]
    exact add_comm _ _
  rw [h, d.sum_delta_round3 hP, Int.cast_mul, Int.cast_sum, Int.cast_sum]
  simp only [intCast_val hP]

omit [DecidableEq Pt] in
theorem combinedBigDelta_round3 {i : ℕ} (hi : i < n) :
    (d.round3 i).combinedBigDelta d.payload3 =
      (∑ j ∈ Finset.range n, d.k j) • (∑ j ∈ Finset.range n, d.gamma j) • gen := by
  have h : (d.round3 i).combinedBigDelta d.payload3 =
      ∑ j ∈ Finset.range n, d.k j • (d.round3 j).bigGamma := by
    unfold Round3.combinedBigDelta
    rw [d.peers_round3, ← add_sum_holeRange (fun j => d.k j • (d.round3 j).bigGamma) hi]
    exact add_comm _ _
  rw [h, Finset.sum_smul]
  exact Finset.sum_congr rfl fun j hj => by rw [d.bigGamma_round3 (Finset.mem_range.1 hj)]

omit [DecidableEq Pt] in
theorem productShare_round3 (hP : P.Valid) (i : ℕ) :
    (d.round3 i).productShare = (shares.share i).secretShare * d.k i +
      ∑ j ∈ (Finset.range n).erase i,
        ((shares.share j).secretShare * d.k i + -((d.betaHat j i).value : ZMod P.curveOrder)) +
      ∑ j ∈ (Finset.range n).erase i, ((d.betaHat i j).value : ZMod P.curveOrder) := by
  simp only [round3, Round2.nextRound, d.peers_round2, sum_holeRange, payload2,
    d.decryptSigned_direct2_dHat hP, Int.cast_add, Int.cast_mul, Int.cast_neg, intCast_val hP,
    Int.cast_sum]
  rfl

omit [DecidableEq Pt] in
theorem sum_productShare_round3 (hP : P.Valid) :
    ∑ i ∈ Finset.range n, (d.round3 i).productShare =
      (∑ i ∈ Finset.range n, d.k i) * ∑ i ∈ Finset.range n, (shares.share i).secretShare := by
  have hpair := sum_sum_holeRange_sub (fun i j => ((d.betaHat i j).value : ZMod P.curveOrder)) n
  simp only [sum_holeRange] at hpair
  have hi : ∀ i ∈ Finset.range n, (d.round3 i).productShare =
      ∑ j ∈ Finset.range n, d.k i * (shares.share j).secretShare +
        ∑ j ∈ (Finset.range n).erase i,
          (((d.betaHat i j).value : ZMod P.curveOrder) - (d.betaHat j i).value) := by
    intro i hi
    rw [d.productShare_round3 hP, ← Finset.add_sum_erase _ _ hi, Finset.sum_sub_distrib,
      Finset.sum_add_distrib, Finset.sum_neg_distrib]
    simp only [mul_comm (d.k i)]
    ring
  rw [Finset.sum_congr rfl hi, Finset.sum_add_distrib, hpair, add_zero, Finset.sum_mul_sum]

omit [DecidableEq Pt] in
theorem consistent_round3 (hP : P.Valid) {i : ℕ} (hi : i < n) :
    (d.round3 i).combinedDelta d.payload3 • gen = (d.round3 i).combinedBigDelta d.payload3 := by
  rw [d.combinedDelta_round3 hP hi, d.combinedBigDelta_round3 hi, smul_smul, mul_comm]

def presigningData (i : ℕ) : PresigningData P Pt :=
  let r3 := d.round3 i
  ⟨(r3.combinedDelta d.payload3)⁻¹ • r3.bigGamma, r3.context.ephemeralScalarShare, r3.productShare,
    fun j => (r3.round2Artefacts j).betaHat, fun j => (r3.round2Artefacts j).hatR,
    fun j => (r3.round2Artefacts j).hatS, r3.kCiphertexts r3.context.keyShare.index, r3.hatCapD,
    fun j => (r3.round2Artefacts j).hatCapF⟩

omit [DecidableEq Pt] in
@[simp] theorem ephemeralScalarShare_presigningData (i : ℕ) :
    (d.presigningData i).ephemeralScalarShare = d.k i := rfl

omit [DecidableEq Pt] in
@[simp] theorem productShare_presigningData (i : ℕ) :
    (d.presigningData i).productShare = (d.round3 i).productShare := rfl

section Output

variable [Fact P.curveOrder.Prime] (hP : P.Valid) (hk : ∑ i ∈ Finset.range n, d.k i ≠ 0)
  (hγ : ∑ i ∈ Finset.range n, d.gamma i ≠ 0)
include hP hk hγ

theorem finalizeToResult_round3 {i : ℕ} (hi : i < n) (rhoMul : ℕ) :
    (d.round3 i).finalizeToResult gen d.payload3 rhoMul = some (.ok (d.presigningData i)) :=
  Round3.finalizeToResult_of_consistent gen _ (d.consistent_round3 hP hi)
    (by rw [d.combinedDelta_round3 hP hi]; exact mul_ne_zero hγ hk)

omit hk [DecidableEq Pt] in
theorem nonce_presigningData {i : ℕ} (hi : i < n) :
    (d.presigningData i).nonce = (∑ j ∈ Finset.range n, d.k j)⁻¹ • gen := by
  rw [presigningData, d.combinedDelta_round3 hP hi, d.bigGamma_round3 hi, smul_smul, mul_inv,
    mul_right_comm, inv_mul_cancel₀ hγ, one_mul]

end Output

end Draws

def smallShares : KeyShares (P := SchemeParams.small) (1 : ZMod SchemeParams.small.curveOrder) 2 :=
  ⟨fun i => ⟨i, 2, 1, fun _ => 1 • 1, SecretKey.small, fun _ => ⟨SecretKey.small.modulus⟩⟩,
    fun _ => rfl, fun _ => rfl, fun _ _ => rfl, fun _ _ => rfl⟩

def smallDraws : Draws smallShares :=
  ⟨fun _ => 1, fun _ => 1, fun _ => 1, fun _ => 1, fun _ _ => ⟨8, 4⟩, fun _ _ => ⟨-8, 4⟩,
    fun _ _ => 1, fun _ _ => 1, fun _ _ => 1, fun _ _ => 1,
    fun _ => Nat.coprime_one_left _, fun _ => Nat.coprime_one_left _,
    fun _ _ => ⟨rfl, by simp [SchemeParams.small]⟩, fun _ _ => ⟨rfl, by simp [SchemeParams.small]⟩,
    fun _ _ => Nat.coprime_one_left _, fun _ _ => Nat.coprime_one_left _,
    fun _ _ => Nat.coprime_one_left _, fun _ _ => Nat.coprime_one_left _⟩

namespace Draws

variable {gen : Pt} {n : ℕ} {shares : KeyShares (P := P) gen n} (d : Draws shares)

/-- An honest run: every message is accepted and every party outputs the nonce `g * k⁻¹`. -/
theorem honest_run [Fact P.curveOrder.Prime] (hP : P.Valid) (hn : 2 ≤ n)
    (hfit : P.deltaBound (n - 1) < P.modulusBits)
    (hk : ∑ i ∈ Finset.range n, d.k i ≠ 0) (hγ : ∑ i ∈ Finset.range n, d.gamma i ≠ 0)
    (rhoMul : ℕ → ℕ) :
    ∃ out : ℕ → PresigningData P Pt,
      (∀ i < n,
        (d.round1 i).finalizeToNextRound (fun j => (d.round1 j).makeBroadcast)
          (fun j => (d.round1 j).makeDirectMessage) = .ok (d.round2 i) ∧
        (∀ j ∈ holeRange n i,
          (d.round2 i).verifyDirectMessage gen j (d.direct2 j i).1 = some (.ok (d.payload2 i j))) ∧
        (d.round2 i).finalizeToNextRound gen (d.payload2 i) (fun j => (d.direct2 i j).2) =
          some (d.round3 i) ∧
        (∀ j ∈ holeRange n i,
          (d.round3 i).verifyDirectMessage j (d.round3 j).makeDirectMessage = .ok (d.payload3 j)) ∧
        (d.round3 i).combinedDelta d.payload3 • gen = (d.round3 i).combinedBigDelta d.payload3 ∧
        (d.round3 i).finalizeToResult gen d.payload3 (rhoMul i) = some (.ok (out i)) ∧
        (d.round3 i).bigGamma = (∑ j ∈ Finset.range n, d.gamma j) • gen ∧
        (out i).nonce = (∑ j ∈ Finset.range n, d.k j)⁻¹ • gen) ∧
      ∑ i ∈ Finset.range n, (out i).productShare =
        (∑ i ∈ Finset.range n, d.k i) * ∑ i ∈ Finset.range n, (shares.share i).secretShare := by
  refine ⟨d.presigningData, fun i hi => ⟨d.round1_finalize hP i,
    fun j _ => d.verifyDirectMessage_direct2 hP i j, d.round2_finalize hn hfit hi,
    fun j hj => d.verifyDirectMessage_round3 hP hi (mem_holeRange.1 hj).1,
    d.consistent_round3 hP hi, d.finalizeToResult_round3 hP hk hγ hi _, d.bigGamma_round3 hi,
    d.nonce_presigningData hP hγ hi⟩, d.sum_productShare_round3 hP⟩

theorem honest_run_small :
    SchemeParams.small.Valid ∧ 2 ≤ 2 ∧ SchemeParams.small.deltaBound (2 - 1) <
        SchemeParams.small.modulusBits ∧
      ∑ i ∈ Finset.range 2, smallDraws.k i ≠ 0 ∧ ∑ i ∈ Finset.range 2, smallDraws.gamma i ≠ 0 ∧
      ∃ out : ℕ → PresigningData SchemeParams.small (ZMod SchemeParams.small.curveOrder),
        (∀ i < 2,
          (smallDraws.round1 i).finalizeToNextRound (fun j => (smallDraws.round1 j).makeBroadcast)
            (fun j => (smallDraws.round1 j).makeDirectMessage) = .ok (smallDraws.round2 i) ∧
          (∀ j ∈ holeRange 2 i, (smallDraws.round2 i).verifyDirectMessage 1 j
            (smallDraws.direct2 j i).1 = some (.ok (smallDraws.payload2 i j))) ∧
          (smallDraws.round2 i).finalizeToNextRound 1 (smallDraws.payload2 i)
            (fun j => (smallDraws.direct2 i j).2) = some (smallDraws.round3 i) ∧
          (∀ j ∈ holeRange 2 i, (smallDraws.round3 i).verifyDirectMessage j
            (smallDraws.round3 j).makeDirectMessage = .ok (smallDraws.payload3 j)) ∧
          (smallDraws.round3 i).combinedDelta smallDraws.payload3 • 1 =
            (smallDraws.round3 i).combinedBigDelta smallDraws.payload3 ∧
          (smallDraws.round3 i).finalizeToResult 1 smallDraws.payload3 1 = some (.ok (out i)) ∧
          (smallDraws.round3 i).bigGamma = (∑ j ∈ Finset.range 2, smallDraws.gamma j) • 1 ∧
          (out i).nonce = (∑ j ∈ Finset.range 2, smallDraws.k j)⁻¹ • 1) ∧
        ∑ i ∈ Finset.range 2, (out i).productShare =
          (∑ i ∈ Finset.range 2, smallDraws.k i) *
            ∑ i ∈ Finset.range 2, (smallShares.share i).secretShare := by
  have hk : ∑ i ∈ Finset.range 2, smallDraws.k i ≠ 0 := by decide
  have hγ : ∑ i ∈ Finset.range 2, smallDraws.gamma i ≠ 0 := by decide
  exact ⟨SchemeParams.small_valid, le_rfl, by decide, hk, hγ,
    haveI := SchemeParams.small_prime
    smallDraws.honest_run SchemeParams.small_valid le_rfl (by decide) hk hγ fun _ => 1⟩

end Draws

end Synedrion.Protocols.Presigning
