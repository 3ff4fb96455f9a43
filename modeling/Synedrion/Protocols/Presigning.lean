import Synedrion.Protocols.Common
import Synedrion.Sigma.Ideal

/-! The three rounds of presigning (`cggmp21/protocols/presigning.rs`) for one party. -/

namespace Synedrion.Protocols.Presigning

open Synedrion.Paillier Synedrion.Paillier.Ciphertext Synedrion.Ideal

inductive PresigningError
  | round1 : String → PresigningError
  | round2 : String → PresigningError
  | round3 : String → PresigningError
  deriving DecidableEq

variable (P : SchemeParams) (Pt : Type)

structure Context where
  keyShare : KeyShare P Pt
  ephemeralScalarShare : ZMod P.curveOrder
  gamma : ZMod P.curveOrder
  rho : ℕ
  nu : ℕ

structure Round1 where
  context : Context P Pt
  kCiphertext : ℕ
  gCiphertext : ℕ

structure Round1Bcast where
  kCiphertext : ℕ
  gCiphertext : ℕ

structure Round2 where
  context : Context P Pt
  kCiphertexts : ℕ → ℕ
  gCiphertexts : ℕ → ℕ

structure Round2Direct where
  gamma : Pt
  d : ℕ
  dHat : ℕ
  f : ℕ
  fHat : ℕ
  psi : AffGProof
  psiHat : AffGProof
  psiHatPrime : LogStarProof

structure Round2Artefact where
  beta : Signed
  betaHat : Signed
  r : ℕ
  s : ℕ
  hatR : ℕ
  hatS : ℕ
  capF : ℕ
  hatCapF : ℕ

structure Round2Payload where
  gamma : Pt
  alpha : Signed
  alphaHat : ZMod P.curveOrder
  capD : ℕ
  hatCapD : ℕ

structure Round3 where
  context : Context P Pt
  delta : Signed
  productShare : ZMod P.curveOrder
  bigDelta : Pt
  bigGamma : Pt
  kCiphertexts : ℕ → ℕ
  gCiphertexts : ℕ → ℕ
  capDs : ℕ → ℕ
  hatCapD : ℕ → ℕ
  round2Artefacts : ℕ → Round2Artefact

structure Round3Direct where
  delta : ZMod P.curveOrder
  bigDelta : Pt
  psiHatPprime : LogStarProof

structure Round3Payload where
  delta : ZMod P.curveOrder
  bigDelta : Pt

structure PresigningProof where
  affGProofs : List (ℕ × ℕ × AffGProof)
  mulProof : MulProof
  decProofs : List (ℕ × DecProof)

variable {P Pt} [AddCommGroup Pt] [Module (ZMod P.curveOrder) Pt] [DecidableEq Pt] (gen : Pt)

def Round1.new (keyShare : KeyShare P Pt) (k gamma : ZMod P.curveOrder) (rho nu : ℕ) :
    Round1 P Pt :=
  let pk := keyShare.paillierSk.modulus
  ⟨⟨keyShare, k, gamma, rho, nu⟩, newWithRandomizer pk k.val rho,
    newWithRandomizer pk gamma.val nu⟩

namespace Round1

variable (r1 : Round1 P Pt)

def makeBroadcast : Round1Bcast := ⟨r1.kCiphertext, r1.gCiphertext⟩

def makeDirectMessage : EncProof := ⟨r1.context.ephemeralScalarShare.val, r1.context.rho⟩

def finalizeToNextRound (bcPayloads : ℕ → Round1Bcast) (dmPayloads : ℕ → EncProof) :
    Except (ℕ × PresigningError) (Round2 P Pt) :=
  let keyShare := r1.context.keyShare
  match (holeRange keyShare.numParties keyShare.index).find? fun j =>
      !(dmPayloads j).verify P (keyShare.publicAux j).paillierPk (bcPayloads j).kCiphertext with
  | some j => .error (j, .round1 "Failed to verify EncProof")
  | none => .ok ⟨r1.context,
      fun j => if j = keyShare.index then r1.kCiphertext else (bcPayloads j).kCiphertext,
      fun j => if j = keyShare.index then r1.gCiphertext else (bcPayloads j).gCiphertext⟩

omit [AddCommGroup Pt] [Module (ZMod P.curveOrder) Pt] [DecidableEq Pt] in
theorem finalizeToNextRound_eq_ok_iff {bcPayloads : ℕ → Round1Bcast} {dmPayloads : ℕ → EncProof}
    {r2 : Round2 P Pt} :
    r1.finalizeToNextRound bcPayloads dmPayloads = .ok r2 ↔
      (∀ j ∈ holeRange r1.context.keyShare.numParties r1.context.keyShare.index,
        (dmPayloads j).verify P (r1.context.keyShare.publicAux j).paillierPk
          (bcPayloads j).kCiphertext = true) ∧
      r2 = ⟨r1.context,
        fun j => if j = r1.context.keyShare.index then r1.kCiphertext else (bcPayloads j).kCiphertext,
        fun j => if j = r1.context.keyShare.index then r1.gCiphertext else (bcPayloads j).gCiphertext⟩ := by
  unfold finalizeToNextRound
  dsimp only
  split
  · rename_i j hj
    have hfail := List.find?_some hj
    simp only [Bool.not_eq_true', reduceCtorEq, false_iff, not_and]
    intro hall
    simp [hall j (List.mem_of_find?_eq_some hj)] at hfail
  · rename_i hnone
    rw [List.find?_eq_none] at hnone
    simp only [Except.ok.injEq, Bool.not_eq_true'] at hnone ⊢
    constructor
    · rintro rfl
      exact ⟨fun j hj => by simpa using hnone j hj, rfl⟩
    · rintro ⟨-, rfl⟩
      rfl

end Round1

namespace Round2

variable (r2 : Round2 P Pt)

def makeDirectMessage (destination : ℕ) (beta betaHat : Signed) (r s hatR hatS : ℕ) :
    Round2Direct Pt × Round2Artefact :=
  let ctx := r2.context
  let pk := ctx.keyShare.paillierSk.modulus
  let targetPk := (ctx.keyShare.publicAux destination).paillierPk
  let capF := newWithRandomizer pk beta.value r
  let d := homomorphicAdd targetPk (homomorphicMul targetPk (r2.kCiphertexts destination) ctx.gamma.val)
    (newWithRandomizer targetPk (-beta.value) s)
  let dHat := homomorphicAdd targetPk
    (homomorphicMul targetPk (r2.kCiphertexts destination) ctx.keyShare.secretShare.val)
    (newWithRandomizer targetPk (-betaHat.value) hatS)
  let fHat := newWithRandomizer pk betaHat.value hatR
  (⟨ctx.gamma • gen, d, dHat, capF, fHat, ⟨ctx.gamma.val, beta.value, s, r⟩,
      ⟨ctx.keyShare.secretShare.val, betaHat.value, hatS, hatR⟩, ⟨ctx.gamma.val, ctx.nu⟩⟩,
    ⟨beta, betaHat, r, s, hatR, hatS, capF, fHat⟩)

def verifyDirectMessage («from» : ℕ) (msg : Round2Direct Pt) :
    Option (Except PresigningError (Round2Payload P Pt)) :=
  let keyShare := r2.context.keyShare
  let sk := keyShare.paillierSk
  let fromPk := (keyShare.publicAux «from»).paillierPk
  let capK := r2.kCiphertexts keyShare.index
  if !msg.psi.verify P gen sk.modulus fromPk capK msg.d msg.f msg.gamma then
    some (.error (.round2 "Failed to verify AffGProof (psi)"))
  else if !msg.psiHat.verify P gen sk.modulus fromPk capK msg.dHat msg.fHat
      (keyShare.publicShares «from») then
    some (.error (.round2 "Failed to verify AffGProof (psi_hat)"))
  else if !msg.psiHatPrime.verify P fromPk (r2.gCiphertexts «from») gen msg.gamma then
    some (.error (.round2 "Failed to verify LogStarProof"))
  else
    (Signed.assertBound ⟨sk.decryptSigned msg.d, P.modulusBits⟩ P.alphaBound).map fun alpha =>
      .ok ⟨msg.gamma, alpha, (sk.decryptSigned msg.dHat : ZMod P.curveOrder), msg.d, msg.dHat⟩

def finalizeToNextRound (dmPayloads : ℕ → Round2Payload P Pt) (dmArtefacts : ℕ → Round2Artefact) :
    Option (Round3 P Pt) :=
  let ctx := r2.context
  let peers := holeRange ctx.keyShare.numParties ctx.keyShare.index
  let bits := P.modulusBits
  let gamma := (peers.map fun j => (dmPayloads j).gamma).sum + ctx.gamma • gen
  do
    let gammaK ← (Signed.fromScalar P.orderBits ctx.gamma).checkedMul bits
      (Signed.fromScalar P.orderBits ctx.ephemeralScalarShare)
    let alphaSum ← Signed.sum bits (peers.map fun j => (dmPayloads j).alpha)
    let delta ← gammaK.checkedAdd bits alphaSum
    let betaSum ← Signed.sum bits (peers.map fun j => (dmArtefacts j).beta)
    let delta ← delta.checkedAdd bits betaSum
    let betaHatSum ← Signed.sum bits (peers.map fun j => (dmArtefacts j).betaHat)
    pure ⟨ctx, delta,
      ctx.keyShare.secretShare * ctx.ephemeralScalarShare +
        (peers.map fun j => (dmPayloads j).alphaHat).sum + betaHatSum.toScalar,
      ctx.ephemeralScalarShare • gamma, gamma, r2.kCiphertexts, r2.gCiphertexts,
      fun j => (dmPayloads j).capD, fun j => (dmPayloads j).hatCapD, dmArtefacts⟩

def nextRound (dmPayloads : ℕ → Round2Payload P Pt) (dmArtefacts : ℕ → Round2Artefact) :
    Round3 P Pt :=
  let ctx := r2.context
  let peers := holeRange ctx.keyShare.numParties ctx.keyShare.index
  let gamma := (peers.map fun j => (dmPayloads j).gamma).sum + ctx.gamma • gen
  ⟨ctx,
    ⟨ctx.gamma.val * ctx.ephemeralScalarShare.val +
        (peers.map fun j => (dmPayloads j).alpha.value).sum +
        (peers.map fun j => (dmArtefacts j).beta.value).sum,
      P.deltaBound peers.length⟩,
    ctx.keyShare.secretShare * ctx.ephemeralScalarShare +
      (peers.map fun j => (dmPayloads j).alphaHat).sum +
      (((peers.map fun j => (dmArtefacts j).betaHat.value).sum : ℤ) : ZMod P.curveOrder),
    ctx.ephemeralScalarShare • gamma, gamma, r2.kCiphertexts, r2.gCiphertexts,
    fun j => (dmPayloads j).capD, fun j => (dmPayloads j).hatCapD, dmArtefacts⟩

section Receive

variable {r2} {«from» : ℕ} {msg : Round2Direct Pt}

def ProofsVerify (r2 : Round2 P Pt) («from» : ℕ) (msg : Round2Direct Pt) : Prop :=
  let keyShare := r2.context.keyShare
  let pk := keyShare.paillierSk.modulus
  let fromPk := (keyShare.publicAux «from»).paillierPk
  let capK := r2.kCiphertexts keyShare.index
  msg.psi.verify P gen pk fromPk capK msg.d msg.f msg.gamma = true ∧
    msg.psiHat.verify P gen pk fromPk capK msg.dHat msg.fHat (keyShare.publicShares «from») = true ∧
    msg.psiHatPrime.verify P fromPk (r2.gCiphertexts «from») gen msg.gamma = true

theorem verifyDirectMessage_of_proofs (h : ProofsVerify gen r2 «from» msg)
    (hα : (r2.context.keyShare.paillierSk.decryptSigned msg.d).natAbs < 2 ^ P.alphaBound) :
    r2.verifyDirectMessage gen «from» msg =
      some (.ok ⟨msg.gamma, ⟨r2.context.keyShare.paillierSk.decryptSigned msg.d, P.alphaBound⟩,
        (r2.context.keyShare.paillierSk.decryptSigned msg.dHat : ZMod P.curveOrder), msg.d,
        msg.dHat⟩) := by
  obtain ⟨h1, h2, h3⟩ := h
  simp only [verifyDirectMessage, h1, h2, h3, Bool.not_true, Bool.false_eq_true, if_false]
  rw [Signed.assertBound_eq_some hα]
  rfl

theorem verifyDirectMessage_eq_none (h : ProofsVerify gen r2 «from» msg)
    (hα : 2 ^ P.alphaBound ≤ (r2.context.keyShare.paillierSk.decryptSigned msg.d).natAbs) :
    r2.verifyDirectMessage gen «from» msg = none := by
  obtain ⟨h1, h2, h3⟩ := h
  simp only [verifyDirectMessage, h1, h2, h3, Bool.not_true, Bool.false_eq_true, if_false]
  rw [Signed.assertBound_eq_none hα]
  rfl

theorem verifyDirectMessage_eq_ok {p : Round2Payload P Pt}
    (h : r2.verifyDirectMessage gen «from» msg = some (.ok p)) :
    ProofsVerify gen r2 «from» msg ∧
      (r2.context.keyShare.paillierSk.decryptSigned msg.d).natAbs < 2 ^ P.alphaBound ∧
      p = ⟨msg.gamma, ⟨r2.context.keyShare.paillierSk.decryptSigned msg.d, P.alphaBound⟩,
        (r2.context.keyShare.paillierSk.decryptSigned msg.dHat : ZMod P.curveOrder), msg.d,
        msg.dHat⟩ := by
  unfold verifyDirectMessage at h
  dsimp only at h
  split at h
  · cases h
  split at h
  · cases h
  split at h
  · cases h
  rename_i h1 h2 h3
  simp only [Bool.not_eq_eq_eq_not, Bool.not_true, Bool.not_eq_false] at h1 h2 h3
  unfold Signed.assertBound at h
  split at h
  · simp only [Option.map_some', Option.some.injEq, Except.ok.injEq] at h
    exact ⟨⟨h1, h2, h3⟩, ‹_›, h.symm⟩
  · cases h

end Receive

section Finalize

variable {r2} {dmPayloads : ℕ → Round2Payload P Pt} {dmArtefacts : ℕ → Round2Artefact}

omit [DecidableEq Pt] in
theorem finalizeToNextRound_eq_some
    (hne : holeRange r2.context.keyShare.numParties r2.context.keyShare.index ≠ [])
    (hα : ∀ j ∈ holeRange r2.context.keyShare.numParties r2.context.keyShare.index,
      (dmPayloads j).alpha.bound = P.alphaBound)
    (hβ : ∀ j ∈ holeRange r2.context.keyShare.numParties r2.context.keyShare.index,
      (dmArtefacts j).beta.bound = P.lpBound + 1)
    (hβ' : ∀ j ∈ holeRange r2.context.keyShare.numParties r2.context.keyShare.index,
      (dmArtefacts j).betaHat.bound = P.lpBound + 1)
    (hfit :
      P.deltaBound (holeRange r2.context.keyShare.numParties r2.context.keyShare.index).length <
        P.modulusBits) :
    r2.finalizeToNextRound gen dmPayloads dmArtefacts =
      some (r2.nextRound gen dmPayloads dmArtefacts) := by
  have hlt := P.lpBound_lt_alphaBound
  unfold SchemeParams.deltaBound at hfit
  have hsα : ∀ x ∈ (holeRange r2.context.keyShare.numParties r2.context.keyShare.index).map
      fun j => (dmPayloads j).alpha, x.bound = P.alphaBound := List.forall_mem_map.2 hα
  have hsβ : ∀ x ∈ (holeRange r2.context.keyShare.numParties r2.context.keyShare.index).map
      fun j => (dmArtefacts j).beta, x.bound = P.lpBound + 1 := List.forall_mem_map.2 hβ
  have hsβ' : ∀ x ∈ (holeRange r2.context.keyShare.numParties r2.context.keyShare.index).map
      fun j => (dmArtefacts j).betaHat, x.bound = P.lpBound + 1 := List.forall_mem_map.2 hβ'
  unfold finalizeToNextRound
  dsimp only
  rw [Signed.checkedMul_isSome (by simp only [Signed.fromScalar]; omega)]
  simp only [Option.bind_eq_bind, Option.some_bind]
  rw [Signed.sum_eq_some _ hsα (by simp only [List.length_map]; omega)]
  simp only [Option.some_bind, List.map_eq_nil_iff, hne, if_false, List.length_map, List.map_map]
  rw [Signed.checkedAdd_isSome (by simp only [Signed.fromScalar]; omega)]
  simp only [Option.some_bind]
  rw [Signed.sum_eq_some _ hsβ (by simp only [List.length_map]; omega)]
  simp only [Option.some_bind, List.map_eq_nil_iff, hne, if_false, List.length_map, List.map_map]
  rw [Signed.checkedAdd_isSome (by simp only [Signed.fromScalar]; omega)]
  simp only [Option.some_bind]
  rw [Signed.sum_eq_some _ hsβ' (by simp only [List.length_map]; omega)]
  simp only [Option.some_bind, Option.pure_def, Signed.fromScalar, Signed.toScalar, List.map_map,
    nextRound, SchemeParams.deltaBound]
  congr 3
  omega

omit [DecidableEq Pt] in
theorem finalizeToNextRound_spec {r3 : Round3 P Pt}
    (h : r2.finalizeToNextRound gen dmPayloads dmArtefacts = some r3) :
    r3.context = r2.context ∧ r3.kCiphertexts = r2.kCiphertexts ∧
      r3.gCiphertexts = r2.gCiphertexts ∧ r3.capDs = (fun j => (dmPayloads j).capD) ∧
      r3.round2Artefacts = dmArtefacts ∧
      r3.delta.value = r2.context.gamma.val * r2.context.ephemeralScalarShare.val +
        ((holeRange r2.context.keyShare.numParties r2.context.keyShare.index).map
          fun j => (dmPayloads j).alpha.value).sum +
        ((holeRange r2.context.keyShare.numParties r2.context.keyShare.index).map
          fun j => (dmArtefacts j).beta.value).sum ∧
      ∃ alphaSum, Signed.sum P.modulusBits
        ((holeRange r2.context.keyShare.numParties r2.context.keyShare.index).map
          fun j => (dmPayloads j).alpha) = some alphaSum := by
  unfold finalizeToNextRound at h
  simp only [Option.bind_eq_bind, Option.pure_def] at h
  obtain ⟨gammaK, hgk, h⟩ := Option.bind_eq_some.1 h
  obtain ⟨alphaSum, has, h⟩ := Option.bind_eq_some.1 h
  obtain ⟨delta0, hd0, h⟩ := Option.bind_eq_some.1 h
  obtain ⟨betaSum, hbs, h⟩ := Option.bind_eq_some.1 h
  obtain ⟨delta, hd, h⟩ := Option.bind_eq_some.1 h
  obtain ⟨betaHatSum, -, h⟩ := Option.bind_eq_some.1 h
  cases h
  refine ⟨rfl, rfl, rfl, rfl, rfl, ?_, alphaSum, has⟩
  rw [(Signed.checkedAdd_eq_some hd).1, (Signed.checkedAdd_eq_some hd0).1,
    (Signed.checkedMul_eq_some hgk).1, Signed.value_of_sum_eq_some has,
    Signed.value_of_sum_eq_some hbs, List.map_map, List.map_map]
  rfl

omit [DecidableEq Pt] in
theorem finalizeToNextRound_bigGamma {r3 : Round3 P Pt}
    (h : r2.finalizeToNextRound gen dmPayloads dmArtefacts = some r3) :
    r3.bigGamma = ((holeRange r2.context.keyShare.numParties r2.context.keyShare.index).map
        fun j => (dmPayloads j).gamma).sum + r2.context.gamma • gen ∧
      r3.bigDelta = r2.context.ephemeralScalarShare • r3.bigGamma := by
  simp only [finalizeToNextRound, Option.bind_eq_bind, Option.pure_def, Option.bind_eq_some,
    Option.some.injEq] at h
  obtain ⟨_, -, _, -, _, -, _, -, _, -, _, -, rfl⟩ := h
  exact ⟨rfl, rfl⟩

end Finalize

end Round2

namespace Round3

variable (r3 : Round3 P Pt)

def makeDirectMessage : Round3Direct P Pt :=
  ⟨r3.delta.toScalar, r3.bigDelta, ⟨r3.context.ephemeralScalarShare.val, r3.context.rho⟩⟩

def verifyDirectMessage («from» : ℕ) (msg : Round3Direct P Pt) :
    Except PresigningError (Round3Payload P Pt) :=
  let keyShare := r3.context.keyShare
  if !msg.psiHatPprime.verify P (keyShare.publicAux «from»).paillierPk (r3.kCiphertexts «from»)
      r3.bigGamma msg.bigDelta then
    .error (.round3 "Failed to verify Log-Star proof")
  else .ok ⟨msg.delta, msg.bigDelta⟩

def combinedDelta (dmPayloads : ℕ → Round3Payload P Pt) : ZMod P.curveOrder :=
  ((holeRange r3.context.keyShare.numParties r3.context.keyShare.index).map
    fun j => (dmPayloads j).delta).sum + r3.delta.toScalar

def combinedBigDelta (dmPayloads : ℕ → Round3Payload P Pt) : Pt :=
  ((holeRange r3.context.keyShare.numParties r3.context.keyShare.index).map
    fun j => (dmPayloads j).bigDelta).sum + r3.bigDelta

def capH (rhoMul : ℕ) : ℕ :=
  let pk := r3.context.keyShare.paillierSk.modulus
  mulRandomizer pk (homomorphicMulUnsigned pk (r3.kCiphertexts r3.context.keyShare.index)
    r3.context.gamma.val) rhoMul

def mulProof (rhoMul : ℕ) : MulProof := ⟨r3.context.ephemeralScalarShare.val, r3.context.rho, rhoMul⟩

def decCiphertext (capH : ℕ) : ℕ :=
  let keyShare := r3.context.keyShare
  let pk := keyShare.paillierSk.modulus
  (holeRange keyShare.numParties keyShare.index).foldl
    (fun c j => homomorphicAdd pk (homomorphicAdd pk c (r3.capDs j)) (r3.round2Artefacts j).capF)
    capH

def decProof (rhoMul : ℕ) : DecProof :=
  ⟨r3.delta.value, r3.context.keyShare.paillierSk.deriveRandomizer (r3.decCiphertext (r3.capH rhoMul))⟩

def finalizeToResult (dmPayloads : ℕ → Round3Payload P Pt) (rhoMul : ℕ) :
    Option (Except PresigningProof (PresigningData P Pt)) :=
  let ctx := r3.context
  let i := ctx.keyShare.index
  let peers := holeRange ctx.keyShare.numParties i
  let delta := r3.combinedDelta dmPayloads
  if delta • gen = r3.combinedBigDelta dmPayloads then
    if delta = 0 then none
    else some (.ok ⟨delta⁻¹ • r3.bigGamma, ctx.ephemeralScalarShare, r3.productShare,
      fun j => (r3.round2Artefacts j).betaHat, fun j => (r3.round2Artefacts j).hatR,
      fun j => (r3.round2Artefacts j).hatS, r3.kCiphertexts i, r3.hatCapD,
      fun j => (r3.round2Artefacts j).hatCapF⟩)
  else
    let pk := ctx.keyShare.paillierSk.modulus
    let affGProofs := peers.flatMap fun j => peers.map fun l =>
      (j, l, (⟨ctx.gamma.val, (r3.round2Artefacts j).beta.value, (r3.round2Artefacts j).s,
        (r3.round2Artefacts j).r⟩ : AffGProof))
    if !(r3.mulProof rhoMul).verify pk (r3.kCiphertexts i) (r3.gCiphertexts i) (r3.capH rhoMul) then
      none
    else if peers.all fun _ => (r3.decProof rhoMul).verify P pk r3.delta.toScalar
        (r3.decCiphertext (r3.capH rhoMul)) then
      some (.error ⟨affGProofs, r3.mulProof rhoMul, peers.map fun j => (j, r3.decProof rhoMul)⟩)
    else none

theorem verifyDirectMessage_of_verify {«from» : ℕ} {msg : Round3Direct P Pt}
    (h : msg.psiHatPprime.verify P (r3.context.keyShare.publicAux «from»).paillierPk
      (r3.kCiphertexts «from») r3.bigGamma msg.bigDelta = true) :
    r3.verifyDirectMessage «from» msg = .ok ⟨msg.delta, msg.bigDelta⟩ := by
  simp [verifyDirectMessage, h]

theorem finalizeToResult_of_consistent {dmPayloads : ℕ → Round3Payload P Pt} {rhoMul : ℕ}
    (h : r3.combinedDelta dmPayloads • gen = r3.combinedBigDelta dmPayloads)
    (h0 : r3.combinedDelta dmPayloads ≠ 0) :
    r3.finalizeToResult gen dmPayloads rhoMul =
      some (.ok ⟨(r3.combinedDelta dmPayloads)⁻¹ • r3.bigGamma, r3.context.ephemeralScalarShare,
        r3.productShare, fun j => (r3.round2Artefacts j).betaHat,
        fun j => (r3.round2Artefacts j).hatR, fun j => (r3.round2Artefacts j).hatS,
        r3.kCiphertexts r3.context.keyShare.index, r3.hatCapD,
        fun j => (r3.round2Artefacts j).hatCapF⟩) := by
  simp only [finalizeToResult, h, h0, if_true, if_false]

theorem verifyDirectMessage_eq_ok {«from» : ℕ} {msg : Round3Direct P Pt} {p : Round3Payload P Pt}
    (h : r3.verifyDirectMessage «from» msg = .ok p) :
    msg.psiHatPprime.verify P (r3.context.keyShare.publicAux «from»).paillierPk
      (r3.kCiphertexts «from») r3.bigGamma msg.bigDelta = true ∧ p = ⟨msg.delta, msg.bigDelta⟩ := by
  unfold verifyDirectMessage at h
  dsimp only at h
  split at h
  · cases h
  · rename_i hv
    cases h
    exact ⟨by simpa using hv, rfl⟩

theorem finalizeToResult_eq_ok {dmPayloads : ℕ → Round3Payload P Pt} {rhoMul : ℕ}
    {data : PresigningData P Pt} (h : r3.finalizeToResult gen dmPayloads rhoMul = some (.ok data)) :
    r3.combinedDelta dmPayloads • gen = r3.combinedBigDelta dmPayloads ∧
      r3.combinedDelta dmPayloads ≠ 0 ∧ data.nonce = (r3.combinedDelta dmPayloads)⁻¹ • r3.bigGamma := by
  unfold finalizeToResult at h
  dsimp only at h
  split_ifs at h with hc h0 <;> cases h
  exact ⟨hc, h0, rfl⟩

end Round3

end Synedrion.Protocols.Presigning
