import Synedrion.Protocols.Presigning
import Mathlib.Algebra.Lie.OfAssociative

/-! The states a party reaches in presigning, whatever the other parties send. -/

namespace Synedrion.Protocols.Presigning

open Synedrion.Paillier Synedrion.Paillier.Ciphertext Synedrion.Ideal

variable {P : SchemeParams} {Pt : Type} [AddCommGroup Pt] [Module (ZMod P.curveOrder) Pt]
  [DecidableEq Pt] (gen : Pt)

inductive Round2.Reachable : Round2 P Pt → Prop
  | mk (keyShare : KeyShare P Pt) (k gamma : ZMod P.curveOrder) {rho nu : ℕ}
      (hrho : Nat.Coprime rho keyShare.paillierSk.modulus)
      (hnu : Nat.Coprime nu keyShare.paillierSk.modulus) (bcPayloads : ℕ → Round1Bcast)
      (dmPayloads : ℕ → EncProof) {r2 : Round2 P Pt}
      (h : (Round1.new keyShare k gamma rho nu).finalizeToNextRound bcPayloads dmPayloads = .ok r2) :
      Round2.Reachable r2

inductive Round3.Reachable : Round3 P Pt → Prop
  | mk {r2 : Round2 P Pt} (h2 : r2.Reachable) (msgs : ℕ → Round2Direct Pt)
      (payloads : ℕ → Round2Payload P Pt)
      (hrecv : ∀ j ∈ holeRange r2.context.keyShare.numParties r2.context.keyShare.index,
        r2.verifyDirectMessage gen j (msgs j) = some (.ok (payloads j)))
      (beta betaHat : ℕ → Signed) (r s hatR hatS : ℕ → ℕ)
      (hbeta : ∀ j, (beta j).BoundedBits P.lpBound)
      (hr : ∀ j, Nat.Coprime (r j) r2.context.keyShare.paillierSk.modulus) {r3 : Round3 P Pt}
      (h : r2.finalizeToNextRound gen payloads
        (fun j => (r2.makeDirectMessage gen j (beta j) (betaHat j) (r j) (s j) (hatR j) (hatS j)).2) =
          some r3) :
      Round3.Reachable r3

namespace Round2

variable {r2 : Round2 P Pt}

omit [AddCommGroup Pt] [Module (ZMod P.curveOrder) Pt] [DecidableEq Pt] in
theorem Reachable.own (h : r2.Reachable) :
    Nat.Coprime r2.context.rho r2.context.keyShare.paillierSk.modulus ∧
      Nat.Coprime r2.context.nu r2.context.keyShare.paillierSk.modulus ∧
      r2.kCiphertexts r2.context.keyShare.index = newWithRandomizer
        r2.context.keyShare.paillierSk.modulus r2.context.ephemeralScalarShare.val r2.context.rho ∧
      r2.gCiphertexts r2.context.keyShare.index = newWithRandomizer
        r2.context.keyShare.paillierSk.modulus r2.context.gamma.val r2.context.nu := by
  obtain ⟨keyShare, k, gamma, hrho, hnu, bc, dm, h⟩ := h
  obtain ⟨-, rfl⟩ := (Round1.finalizeToNextRound_eq_ok_iff _).1 h
  exact ⟨hrho, hnu, if_pos rfl, if_pos rfl⟩

omit [AddCommGroup Pt] [Module (ZMod P.curveOrder) Pt] [DecidableEq Pt] in
theorem Reachable.encrypts_kCiphertext (h : r2.Reachable) :
    Encrypts r2.context.keyShare.paillierSk.modulus (r2.kCiphertexts r2.context.keyShare.index)
      r2.context.ephemeralScalarShare.val := by
  obtain ⟨hrho, -, hK, -⟩ := h.own
  rw [hK]
  exact Encrypts.newWithRandomizer _ ((ZMod.isUnit_iff_coprime _ _).2 hrho)

variable {«from» : ℕ} {msg : Round2Direct Pt}

theorem Reachable.encrypts_of_verifyDirectMessage (h : r2.Reachable) {p : Round2Payload P Pt}
    (hv : r2.verifyDirectMessage gen «from» msg = some (.ok p)) :
    Encrypts r2.context.keyShare.paillierSk.modulus p.capD p.alpha.value ∧
      p.alpha.value.natAbs < 2 ^ P.alphaBound ∧ p.alpha.bound = P.alphaBound := by
  obtain ⟨⟨hpsi, -, -⟩, hlt, rfl⟩ := verifyDirectMessage_eq_ok gen hv
  have hD := AffGProof.encrypts_of_verify gen hpsi h.encrypts_kCiphertext
  exact ⟨hD.congr (r2.context.keyShare.paillierSk.decryptSigned_modEq hD).symm, hlt, rfl⟩

theorem Reachable.decryptSigned_d (h : r2.Reachable) (hp : ProofsVerify gen r2 «from» msg)
    (hlo : -(r2.context.keyShare.paillierSk.modulus : ℤ) <
      2 * (msg.psi.x * r2.context.ephemeralScalarShare.val + -msg.psi.y))
    (hhi : 2 * (msg.psi.x * r2.context.ephemeralScalarShare.val + -msg.psi.y) ≤
      r2.context.keyShare.paillierSk.modulus) :
    r2.context.keyShare.paillierSk.decryptSigned msg.d =
      msg.psi.x * r2.context.ephemeralScalarShare.val + -msg.psi.y := by
  obtain ⟨hpsi, -, -⟩ := hp
  exact r2.context.keyShare.paillierSk.decryptSigned_of_encrypts
    (AffGProof.encrypts_of_verify gen hpsi h.encrypts_kCiphertext) hlo hhi

theorem Reachable.verifyDirectMessage_eq_none_iff (h : r2.Reachable)
    (hp : ProofsVerify gen r2 «from» msg)
    (hlo : -(r2.context.keyShare.paillierSk.modulus : ℤ) <
      2 * (msg.psi.x * r2.context.ephemeralScalarShare.val + -msg.psi.y))
    (hhi : 2 * (msg.psi.x * r2.context.ephemeralScalarShare.val + -msg.psi.y) ≤
      r2.context.keyShare.paillierSk.modulus) :
    r2.verifyDirectMessage gen «from» msg = none ↔
      2 ^ P.alphaBound ≤ (msg.psi.x * r2.context.ephemeralScalarShare.val + -msg.psi.y).natAbs := by
  have hdec := h.decryptSigned_d gen hp hlo hhi
  rcases le_or_lt (2 ^ P.alphaBound)
    (msg.psi.x * r2.context.ephemeralScalarShare.val + -msg.psi.y).natAbs with hα | hα
  · exact iff_of_true (verifyDirectMessage_eq_none gen hp (by rwa [hdec])) hα
  · rw [verifyDirectMessage_of_proofs gen hp (by rwa [hdec])]
    exact iff_of_false (Option.some_ne_none _) (not_le.2 hα)

end Round2

section Small

def smallKeyShare : KeyShare SchemeParams.small (ZMod SchemeParams.small.curveOrder) :=
  ⟨0, 2, 1, fun _ => 1, SecretKey.small, fun _ => ⟨SecretKey.small.modulus⟩⟩

def smallBcast (x : ℤ) : ℕ → Round1Bcast := fun _ =>
  ⟨newWithRandomizer SecretKey.small.modulus 1 1, newWithRandomizer SecretKey.small.modulus x 1⟩

def smallEncProof : ℕ → EncProof := fun _ => ⟨1, 1⟩

def smallMessage (r2 : Round2 SchemeParams.small (ZMod SchemeParams.small.curveOrder)) (x : ℤ) :
    Round2Direct (ZMod SchemeParams.small.curveOrder) :=
  let pk := SecretKey.small.modulus
  ⟨(x : ZMod SchemeParams.small.curveOrder) • 1,
    homomorphicAdd pk (homomorphicMul pk (r2.kCiphertexts 0) x) (newWithRandomizer pk (-0) 1),
    homomorphicAdd pk (homomorphicMul pk (r2.kCiphertexts 0) 1) (newWithRandomizer pk (-0) 1),
    newWithRandomizer pk 0 1, newWithRandomizer pk 0 1, ⟨x, 0, 1, 1⟩, ⟨1, 0, 1, 1⟩, ⟨x, 1⟩⟩

theorem smallEncProof_verify (x : ℤ) (j : ℕ) : (smallEncProof j).verify SchemeParams.small
    SecretKey.small.modulus (smallBcast x j).kCiphertext = true := by
  have hone : (1 : ℤ).natAbs ≤ 2 ^ (SchemeParams.small.lBound + SchemeParams.small.epsBound) := by
    decide
  dsimp only [smallEncProof, smallBcast]
  exact EncProof.verify_honest hone (Nat.coprime_one_left _)

theorem smallMessage_proofsVerify {r2 : Round2 SchemeParams.small (ZMod SchemeParams.small.curveOrder)}
    {x : ℤ} (hks : r2.context.keyShare = smallKeyShare)
    (hG : r2.gCiphertexts 1 = (smallBcast x 1).gCiphertext)
    (hx : x.natAbs ≤ 2 ^ (SchemeParams.small.lBound + SchemeParams.small.epsBound)) :
    Round2.ProofsVerify 1 r2 1 (smallMessage r2 x) := by
  have hone : (1 : ℤ).natAbs ≤ 2 ^ (SchemeParams.small.lBound + SchemeParams.small.epsBound) := by
    decide
  have hzero : (0 : ℤ).natAbs ≤ 2 ^ (SchemeParams.small.lpBound + SchemeParams.small.epsBound) := by
    decide
  dsimp only [smallBcast] at hG
  simp only [Round2.ProofsVerify, smallMessage, hks, hG]
  dsimp only [smallKeyShare]
  exact ⟨AffGProof.verify_honest 1 hx hzero (Nat.coprime_one_left _) (Nat.coprime_one_left _) rfl,
    AffGProof.verify_honest 1 hone hzero (Nat.coprime_one_left _) (Nat.coprime_one_left _)
      (by decide),
    LogStarProof.verify_honest 1 hx (Nat.coprime_one_left _) rfl⟩

theorem small_round2 {nu : ℕ} (hnu : Nat.Coprime nu SecretKey.small.modulus) {x : ℤ}
    (hx : x.natAbs ≤ 2 ^ (SchemeParams.small.lBound + SchemeParams.small.epsBound)) :
    ∃ r2, (Round1.new smallKeyShare 1 1 1 nu).finalizeToNextRound (smallBcast x) smallEncProof =
        .ok r2 ∧ r2.Reachable ∧ Round2.ProofsVerify 1 r2 1 (smallMessage r2 x) ∧
      r2.context = ⟨smallKeyShare, 1, 1, 1, nu⟩ ∧ r2.kCiphertexts 1 = (smallBcast x 1).kCiphertext := by
  obtain ⟨r2, h1⟩ : ∃ r2, (Round1.new smallKeyShare 1 1 1 nu).finalizeToNextRound (smallBcast x)
      smallEncProof = .ok r2 :=
    ⟨_, (Round1.finalizeToNextRound_eq_ok_iff _).2 ⟨fun j _ => smallEncProof_verify x j, rfl⟩⟩
  obtain ⟨-, rfl⟩ := (Round1.finalizeToNextRound_eq_ok_iff _).1 h1
  refine ⟨_, h1, .mk _ _ _ (Nat.coprime_one_left _) hnu _ _ h1,
    smallMessage_proofsVerify rfl ?_ hx, rfl, ?_⟩ <;> dsimp only [Round1.new, smallKeyShare] <;>
    exact if_neg one_ne_zero

/-- `D = K_0 ⊗ 128` passes the proofs, but `α = 128` fails the bound and `unwrap` panics. -/
theorem verifyDirectMessage_small_panics :
    ∃ r2 : Round2 SchemeParams.small (ZMod SchemeParams.small.curveOrder),
      (Round1.new smallKeyShare 1 1 1 1).finalizeToNextRound (smallBcast 128) smallEncProof =
        .ok r2 ∧ Round2.ProofsVerify 1 r2 1 (smallMessage r2 128) ∧
      r2.verifyDirectMessage 1 1 (smallMessage r2 128) = none := by
  obtain ⟨r2, h1, h2, hp, hctx, -⟩ := small_round2 (Nat.coprime_one_left _) (x := 128) (by decide)
  refine ⟨r2, h1, hp, (h2.verifyDirectMessage_eq_none_iff 1 hp ?_ ?_).2 ?_⟩ <;>
    rw [hctx] <;> dsimp only [smallMessage] <;> decide

theorem small_round3 {nu : ℕ} (hnu : Nat.Coprime nu SecretKey.small.modulus) :
    ∃ r3 : Round3 SchemeParams.small (ZMod SchemeParams.small.curveOrder), r3.Reachable 1 ∧
      r3.context = ⟨smallKeyShare, 1, 1, 1, nu⟩ ∧ r3.kCiphertexts 1 = (smallBcast 1 1).kCiphertext ∧
      r3.delta.value = 2 ∧ r3.bigGamma = 2 ∧ r3.bigDelta = 2 := by
  obtain ⟨r2, -, h2, hp, hctx, hK1⟩ := small_round2 hnu (x := 1) (by decide)
  have hα : r2.context.keyShare.paillierSk.decryptSigned (smallMessage r2 1).d = 1 := by
    rw [h2.decryptSigned_d 1 hp] <;> rw [hctx] <;> dsimp only [smallMessage] <;> decide
  obtain ⟨p, hrecv⟩ : ∃ p, r2.verifyDirectMessage 1 1 (smallMessage r2 1) = some (.ok p) :=
    ⟨_, Round2.verifyDirectMessage_of_proofs 1 hp (by rw [hα]; decide)⟩
  obtain ⟨-, -, hpeq⟩ := Round2.verifyDirectMessage_eq_ok 1 hrecv
  have hpeers : holeRange r2.context.keyShare.numParties r2.context.keyShare.index = [1] := by
    rw [hctx]
    rfl
  have hfin := @Round2.finalizeToNextRound_eq_some _ _ _ _ 1 r2 (fun _ => p)
    (fun j => (r2.makeDirectMessage 1 j ⟨0, 4⟩ ⟨0, 4⟩ 1 1 1 1).2) (by simp [hpeers])
    (fun _ _ => by rw [hpeq]) (fun _ _ => rfl) (fun _ _ => rfl) (by rw [hpeers]; decide)
  refine ⟨_, .mk h2 (fun _ => smallMessage r2 1) _ (fun j hj => ?_) _ _ _ _ _ _
    (fun _ => ⟨rfl, by decide⟩) (fun _ => Nat.coprime_one_left _) hfin, hctx, hK1, ?_, ?_, ?_⟩
  · rw [hpeers, List.mem_singleton] at hj
    rw [hj]
    exact hrecv
  all_goals simp only [Round2.nextRound, hpeq, hpeers, hα, List.map_cons, List.map_nil,
    List.sum_cons, List.sum_nil]
  all_goals simp only [hctx, smallMessage, Round2.makeDirectMessage]
  all_goals decide

end Small

namespace Round3

variable {r3 : Round3 P Pt}

theorem Reachable.spec (h : r3.Reachable gen) :
    Nat.Coprime r3.context.rho r3.context.keyShare.paillierSk.modulus ∧
      Nat.Coprime r3.context.nu r3.context.keyShare.paillierSk.modulus ∧
      r3.kCiphertexts r3.context.keyShare.index = newWithRandomizer
        r3.context.keyShare.paillierSk.modulus r3.context.ephemeralScalarShare.val r3.context.rho ∧
      r3.gCiphertexts r3.context.keyShare.index = newWithRandomizer
        r3.context.keyShare.paillierSk.modulus r3.context.gamma.val r3.context.nu ∧
      ∃ alpha beta : ℕ → ℤ,
        (∀ j ∈ holeRange r3.context.keyShare.numParties r3.context.keyShare.index,
          Encrypts r3.context.keyShare.paillierSk.modulus (r3.capDs j) (alpha j) ∧
            (alpha j).natAbs < 2 ^ P.alphaBound) ∧
        (∀ j ∈ holeRange r3.context.keyShare.numParties r3.context.keyShare.index,
          Encrypts r3.context.keyShare.paillierSk.modulus (r3.round2Artefacts j).capF (beta j) ∧
            (beta j).natAbs ≤ 2 ^ P.lpBound) ∧
        r3.delta.value = r3.context.gamma.val * r3.context.ephemeralScalarShare.val +
          ((holeRange r3.context.keyShare.numParties r3.context.keyShare.index).map alpha).sum +
          ((holeRange r3.context.keyShare.numParties r3.context.keyShare.index).map beta).sum ∧
        (holeRange r3.context.keyShare.numParties r3.context.keyShare.index).length ≤
          P.modulusBits := by
  obtain @⟨r2, h2, msgs, payloads, hrecv, beta, betaHat, r, s, hatR, hatS, hbeta, hr, _, h⟩ := h
  obtain ⟨hctx, hK, hG, hD, hA, hδ, alphaSum, hsum⟩ := Round2.finalizeToNextRound_spec gen h
  have hrecv' j (hj : j ∈ holeRange r2.context.keyShare.numParties r2.context.keyShare.index) :=
    h2.encrypts_of_verifyDirectMessage gen (hrecv j hj)
  rw [hctx, hK, hG, hD, hA, hδ]
  refine ⟨h2.own.1, h2.own.2.1, h2.own.2.2.1, h2.own.2.2.2, fun j => (payloads j).alpha.value,
    fun j => (beta j).value, fun j hj => ⟨(hrecv' j hj).1, (hrecv' j hj).2.1⟩,
    fun j _ => ⟨Encrypts.newWithRandomizer _ ((ZMod.isUnit_iff_coprime _ _).2 (hr j)), (hbeta j).2⟩,
    rfl, ?_⟩
  rcases eq_or_ne (holeRange r2.context.keyShare.numParties r2.context.keyShare.index) [] with
    hnil | hne
  · simp [hnil]
  · have := Signed.lt_of_sum_eq_some hsum
      (List.forall_mem_map.2 fun j hj => (hrecv' j hj).2.2) (by simpa using hne)
    rw [List.length_map] at this
    omega

theorem Reachable.encrypts_decCiphertext (h : r3.Reachable gen) {rhoMul : ℕ}
    (hmul : Nat.Coprime rhoMul r3.context.keyShare.paillierSk.modulus) :
    Encrypts r3.context.keyShare.paillierSk.modulus (r3.decCiphertext (r3.capH rhoMul))
      r3.delta.value := by
  obtain ⟨hrho, -, hK, -, alpha, beta, hD, hF, hδ, -⟩ := h.spec
  have hH : Encrypts r3.context.keyShare.paillierSk.modulus (r3.capH rhoMul)
      (r3.context.gamma.val * r3.context.ephemeralScalarShare.val) := by
    unfold capH
    rw [hK]
    exact ((Encrypts.newWithRandomizer _ ((ZMod.isUnit_iff_coprime _ _).2 hrho)).homomorphicMulUnsigned
      _).mulRandomizer ((ZMod.isUnit_iff_coprime _ _).2 hmul)
  rw [hδ]
  exact encrypts_foldl _ _ _ (fun j hj => (hD j hj).1) (fun j hj => (hF j hj).1) hH

theorem Reachable.two_mul_natAbs_delta_lt (hP : P.Valid) (h : r3.Reachable gen) :
    2 * r3.delta.value.natAbs < r3.context.keyShare.paillierSk.modulus := by
  obtain ⟨-, -, -, -, alpha, beta, hD, hF, hδ, hlen⟩ := h.spec
  haveI : NeZero P.curveOrder := ⟨hP.order_pos.ne'⟩
  have hγk : r3.context.gamma.val * r3.context.ephemeralScalarShare.val < P.curveOrder ^ 2 := by
    rw [sq]
    exact Nat.mul_lt_mul'' (ZMod.val_lt _) (ZMod.val_lt _)
  have hα := Signed.natAbs_sum_le _ alpha fun j hj => (hD j hj).2.le
  have hβ := Signed.natAbs_sum_le _ beta fun j hj => (hF j hj).2
  have hα' := Nat.mul_le_mul_right (2 ^ P.alphaBound) hlen
  have hβ' := Nat.mul_le_mul_right (2 ^ P.lpBound) hlen
  have hroom := hP.decrypt_room
  have hN := r3.context.keyShare.paillierSk.two_mul_two_pow_le_modulus
  rw [mul_add] at hroom
  rw [hδ]
  omega

theorem Reachable.decryptSigned_decCiphertext (hP : P.Valid) (h : r3.Reachable gen) {rhoMul : ℕ}
    (hmul : Nat.Coprime rhoMul r3.context.keyShare.paillierSk.modulus) :
    r3.context.keyShare.paillierSk.decryptSigned (r3.decCiphertext (r3.capH rhoMul)) =
      r3.delta.value := by
  have hlt := h.two_mul_natAbs_delta_lt gen hP
  exact r3.context.keyShare.paillierSk.decryptSigned_of_encrypts
    (h.encrypts_decCiphertext gen hmul) (by omega) (by omega)

theorem Reachable.decProof_verify (hP : P.Valid) (h : r3.Reachable gen) {rhoMul : ℕ}
    (hmul : Nat.Coprime rhoMul r3.context.keyShare.paillierSk.modulus) :
    (r3.decProof rhoMul).verify P r3.context.keyShare.paillierSk.modulus r3.delta.toScalar
      (r3.decCiphertext (r3.capH rhoMul)) = true := by
  obtain ⟨u, hu⟩ := h.encrypts_decCiphertext gen hmul
  have hc := r3.context.keyShare.paillierSk.eq_newWithRandomizer_of_encrypts ⟨u, hu⟩
  rw [h.decryptSigned_decCiphertext gen hP hmul] at hc
  refine DecProof.verify_honest ?_ hc
  rw [r3.context.keyShare.paillierSk.deriveRandomizer_of_encUnit hu]
  exact ZMod.val_coe_unit_coprime u

/-- In the abort branch the `Π^dec` ciphertext is `enc(δ_i, ρ)` and the asserted check holds. -/
theorem Reachable.decCiphertext_eq_delta (hP : P.Valid) (h : r3.Reachable gen) {rhoMul : ℕ}
    (hmul : Nat.Coprime rhoMul r3.context.keyShare.paillierSk.modulus) :
    let sk := r3.context.keyShare.paillierSk
    let c := r3.decCiphertext (r3.capH rhoMul)
    sk.decryptSigned c = r3.delta.value ∧
      (c : ZMod (sk.modulus * sk.modulus)) =
        newWithRandomizer sk.modulus r3.delta.value (sk.deriveRandomizer c) ∧
      r3.makeDirectMessage.delta = r3.delta.toScalar ∧
      (r3.decProof rhoMul).verify P sk.modulus r3.delta.toScalar c = true := by
  have hdec := h.decryptSigned_decCiphertext gen hP hmul
  have hc := r3.context.keyShare.paillierSk.eq_newWithRandomizer_of_encrypts
    (h.encrypts_decCiphertext gen hmul)
  rw [hdec] at hc
  exact ⟨hdec, hc, rfl, h.decProof_verify gen hP hmul⟩

theorem decCiphertext_eq_delta_small :
    ∃ r3 : Round3 SchemeParams.small (ZMod SchemeParams.small.curveOrder),
      SchemeParams.small.Valid ∧ r3.Reachable 1 ∧
      Nat.Coprime 1 r3.context.keyShare.paillierSk.modulus ∧ r3.delta.value = 2 ∧
      let sk := r3.context.keyShare.paillierSk
      let c := r3.decCiphertext (r3.capH 1)
      sk.decryptSigned c = r3.delta.value ∧
        (c : ZMod (sk.modulus * sk.modulus)) =
          newWithRandomizer sk.modulus r3.delta.value (sk.deriveRandomizer c) ∧
        r3.makeDirectMessage.delta = r3.delta.toScalar ∧
        (r3.decProof 1).verify SchemeParams.small sk.modulus r3.delta.toScalar c = true := by
  obtain ⟨r3, h, -, -, hδ, -⟩ := small_round3 (Nat.coprime_one_left _)
  exact ⟨r3, SchemeParams.small_valid, h, Nat.coprime_one_left _, hδ,
    h.decCiphertext_eq_delta 1 SchemeParams.small_valid (Nat.coprime_one_left _)⟩

theorem Reachable.mulProof_verify_iff (h : r3.Reachable gen) {rhoMul : ℕ}
    (hmul : Nat.Coprime rhoMul r3.context.keyShare.paillierSk.modulus) :
    (r3.mulProof rhoMul).verify r3.context.keyShare.paillierSk.modulus
        (r3.kCiphertexts r3.context.keyShare.index) (r3.gCiphertexts r3.context.keyShare.index)
        (r3.capH rhoMul) = true ↔
      (r3.context.rho : ZMod r3.context.keyShare.paillierSk.modulus) ^ r3.context.gamma.val =
        (r3.context.nu : ZMod r3.context.keyShare.paillierSk.modulus) ^
          r3.context.ephemeralScalarShare.val := by
  obtain ⟨hrho, hnu, hK, hG, -⟩ := h.spec
  dsimp only [capH, mulProof]
  rw [hK, hG, MulProof.verify_eq_true_iff hrho hmul, cast_mulRandomizer, cast_mulRandomizer,
    cast_homomorphicMulUnsigned, cast_homomorphicMul,
    cast_newWithRandomizer_of_unit _ (ZMod.coe_unitOfCoprime _ hrho).symm,
    cast_newWithRandomizer_of_unit _ (ZMod.coe_unitOfCoprime _ hnu).symm,
    natCast_pow_modulus_eq (ZMod.coe_unitOfCoprime _ hmul).symm, powSigned_units,
    ← Units.val_pow_eq_pow_val, ← Units.val_mul, ← Units.val_mul, Units.eq_iff, mul_left_inj,
    ← zpow_natCast, encUnit_zpow, encUnit_zpow, mul_comm (r3.context.gamma.val : ℤ),
    r3.context.keyShare.paillierSk.encUnit_inj, Units.ext_iff, zpow_natCast, zpow_natCast,
    Units.val_pow_eq_pow_val, Units.val_pow_eq_pow_val, ZMod.coe_unitOfCoprime,
    ZMod.coe_unitOfCoprime]

theorem Reachable.finalizeToResult_eq_none_iff (hP : P.Valid) (h : r3.Reachable gen)
    {dmPayloads : ℕ → Round3Payload P Pt} {rhoMul : ℕ}
    (hmul : Nat.Coprime rhoMul r3.context.keyShare.paillierSk.modulus)
    (habort : r3.combinedDelta dmPayloads • gen ≠ r3.combinedBigDelta dmPayloads) :
    r3.finalizeToResult gen dmPayloads rhoMul = none ↔
      (r3.context.rho : ZMod r3.context.keyShare.paillierSk.modulus) ^ r3.context.gamma.val ≠
        (r3.context.nu : ZMod r3.context.keyShare.paillierSk.modulus) ^
          r3.context.ephemeralScalarShare.val := by
  rw [Ne, ← h.mulProof_verify_iff gen hmul]
  simp only [finalizeToResult, habort, if_false, h.decProof_verify gen hP hmul,
    List.all_eq_true, implies_true, if_true]
  cases (r3.mulProof rhoMul).verify r3.context.keyShare.paillierSk.modulus
    (r3.kCiphertexts r3.context.keyShare.index) (r3.gCiphertexts r3.context.keyShare.index)
    (r3.capH rhoMul) <;> simp

/-- With `ρ_0^γ_0 = 1 ≠ 2 = ν_0^k_0` the abort branch's `Π^mul` assertion panics. -/
theorem finalizeToResult_small_panics :
    ∃ r3 : Round3 SchemeParams.small (ZMod SchemeParams.small.curveOrder), r3.Reachable 1 ∧
      r3.context = ⟨smallKeyShare, 1, 1, 1, 2⟩ ∧
      r3.verifyDirectMessage 1 ⟨0, r3.bigGamma, ⟨1, 1⟩⟩ = .ok ⟨0, r3.bigGamma⟩ ∧
      r3.combinedDelta (fun _ => ⟨0, r3.bigGamma⟩) • 1 ≠
        r3.combinedBigDelta (fun _ => ⟨0, r3.bigGamma⟩) ∧
      r3.finalizeToResult 1 (fun _ => ⟨0, r3.bigGamma⟩) 1 = none := by
  obtain ⟨r3, h, hctx, hK1, hδ, hΓ, hΔ⟩ := @small_round3 2 (by decide)
  have hone : (1 : ℤ).natAbs ≤ 2 ^ (SchemeParams.small.lBound + SchemeParams.small.epsBound) := by
    decide
  have habort : r3.combinedDelta (fun _ => ⟨0, r3.bigGamma⟩) •
      (1 : ZMod SchemeParams.small.curveOrder) ≠ r3.combinedBigDelta (fun _ => ⟨0, r3.bigGamma⟩) := by
    simp only [combinedDelta, combinedBigDelta, Signed.toScalar, hctx, hδ, hΓ, hΔ]
    decide
  refine ⟨r3, h, hctx, verifyDirectMessage_of_verify _ ?_, habort,
    (h.finalizeToResult_eq_none_iff 1 SchemeParams.small_valid (Nat.coprime_one_left _) habort).2 ?_⟩
  · rw [hctx, hK1]
    dsimp only [smallKeyShare, smallBcast]
    exact LogStarProof.verify_honest r3.bigGamma hone (Nat.coprime_one_left _)
      (by rw [Int.cast_one, one_smul])
  · rw [hctx]
    decide

end Round3

end Synedrion.Protocols.Presigning
