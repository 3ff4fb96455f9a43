import Synedrion.Protocols.Signing

/-! Signing over the generic round interface (`src/protocols/signing.rs`). -/

namespace Synedrion.Curve

variable {q : ℕ} {Pt : Type} [AddCommGroup Pt] [Module (ZMod q) Pt]

/-- Modelled from the spec: `tools::group::Signature`, an ECDSA signature of nonzero scalars. -/
structure Signature (q : ℕ) where
  r : ZMod q
  s : ZMod q
  r_ne_zero : r ≠ 0
  s_ne_zero : s ≠ 0

namespace Signature

/-- Modelled from the spec: `Signature::from_scalars(r, s)`, which fails on a zero scalar. -/
def fromScalars (r s : ZMod q) : Option (Signature q) :=
  if h : r ≠ 0 ∧ s ≠ 0 then some ⟨r, s, h.1, h.2⟩ else none

/-- Modelled from the spec: `Signature::split_scalars`, the pair `(r, s)`. -/
def splitScalars (sig : Signature q) : ZMod q × ZMod q := (sig.r, sig.s)

variable [DecidableEq Pt] (xCoordinate : Pt → ZMod q) (gen : Pt)

/-- Modelled from the spec: `Signature::verify(V, m)`, ECDSA verification, for `V ≠ 0`. -/
def verify (vkey : Pt) (message : ZMod q) (sig : Signature q) : Bool :=
  decide (vkey ≠ 0 ∧ xCoordinate (verifierPoint gen vkey message sig.r sig.s) = sig.r)

end Signature

end Synedrion.Curve

namespace Synedrion.Protocols.Signing.Generic

open Synedrion.Curve

variable {q : ℕ} {Pt : Type}

structure PresigningData (q : ℕ) (Pt : Type) where
  bigR : Pt
  k : ZMod q
  chi : ZMod q

structure Round1 (q : ℕ) (Pt : Type) where
  verifyingKey : Pt
  message : ZMod q
  r : ZMod q
  sPart : ZMod q

structure Round1Bcast (q : ℕ) where
  sPart : ZMod q

section Round

variable (xCoordinate : Pt → ZMod q)

def Round1.new (presigning : PresigningData q Pt) (message : ZMod q) (verifyingKey : Pt) :
    Round1 q Pt :=
  let r := xCoordinate presigning.bigR
  ⟨verifyingKey, message, r, presigning.k * message + r * presigning.chi⟩

@[simp] theorem Round1.sPart_new (presigning : PresigningData q Pt) (message : ZMod q)
    (verifyingKey : Pt) :
    (Round1.new xCoordinate presigning message verifyingKey).sPart =
      presigning.k * message + xCoordinate presigning.bigR * presigning.chi := rfl

namespace Round1

variable (r1 : Round1 q Pt)

def toSend : Round1Bcast q := ⟨r1.sPart⟩

def verifyReceived (msg : Round1Bcast q) : Except String (ZMod q) := .ok msg.sPart

variable [AddCommGroup Pt] [Module (ZMod q) Pt] [DecidableEq Pt] (gen : Pt)

def finalize (payloads : List (ZMod q)) : Option (Except String (Signature q)) := do
  let s := payloads.sum + r1.sPart
  let sig ← Signature.fromScalars r1.r s
  if sig.verify xCoordinate gen r1.verifyingKey r1.message then pure (.ok sig) else none

theorem map_finalize (payloads : List (ZMod q)) :
    (r1.finalize xCoordinate gen payloads).map (Except.map Signature.splitScalars) =
      (Curve.fromScalars xCoordinate gen r1.r (payloads.sum + r1.sPart) r1.verifyingKey
        r1.message).map fun sig => .ok (sig.r, sig.s) := by
  by_cases h : r1.r ≠ 0 ∧ payloads.sum + r1.sPart ≠ 0
  · by_cases hv : r1.verifyingKey ≠ 0 ∧ xCoordinate (verifierPoint gen r1.verifyingKey r1.message
        r1.r (payloads.sum + r1.sPart)) = r1.r <;>
      simp [finalize, Signature.fromScalars, Curve.fromScalars, Signature.verify, Verifies,
        Signature.splitScalars, Except.map, h, hv]
  · have hv : ¬Verifies xCoordinate gen r1.verifyingKey r1.message
        ⟨r1.r, payloads.sum + r1.sPart, verifierPoint gen r1.verifyingKey r1.message r1.r
          (payloads.sum + r1.sPart)⟩ := fun hv => h ⟨hv.2.1, hv.2.2.1⟩
    simp [finalize, Signature.fromScalars, Curve.fromScalars, h, hv]

end Round1

end Round

section Honest

variable [AddCommGroup Pt] [Module (ZMod q) Pt] [DecidableEq Pt] [Fact q.Prime]
  (xCoordinate : Pt → ZMod q)
  (gen : Pt) {n : ℕ} (presigning : ℕ → PresigningData q Pt) (message : ZMod q) {k x : ZMod q}

/-- Honest generic signing: every party assembles `(r, k * (m + r * x))`; none panics. -/
theorem finalize_honest (hx : x • gen ≠ 0) (hR : ∀ i < n, (presigning i).bigR = k⁻¹ • gen)
    (hk : ∑ i ∈ Finset.range n, (presigning i).k = k)
    (hχ : ∑ i ∈ Finset.range n, (presigning i).chi = k * x) (hk0 : k ≠ 0)
    (hr : xCoordinate (k⁻¹ • gen) ≠ 0) (hm : message + xCoordinate (k⁻¹ • gen) * x ≠ 0) {i : ℕ}
    (hi : i < n) :
    ((Round1.new xCoordinate (presigning i) message (x • gen)).finalize xCoordinate gen
        ((holeRange n i).map fun j =>
          (Round1.new xCoordinate (presigning j) message (x • gen)).toSend.sPart)).map
        (Except.map Signature.splitScalars) =
      some (.ok (xCoordinate (k⁻¹ • gen), k * (message + xCoordinate (k⁻¹ • gen) * x))) := by
  set r1 := fun j => Round1.new xCoordinate (presigning j) message (x • gen)
  have hs : ∑ j ∈ Finset.range n, (r1 j).sPart =
      k * (message + xCoordinate (k⁻¹ • gen) * x) :=
    calc ∑ j ∈ Finset.range n, (r1 j).sPart
        = ∑ j ∈ Finset.range n,
            ((presigning j).k * message + xCoordinate (k⁻¹ • gen) * (presigning j).chi) :=
          Finset.sum_congr rfl fun j hj => by rw [Round1.sPart_new, hR j (Finset.mem_range.1 hj)]
      _ = k * (message + xCoordinate (k⁻¹ • gen) * x) := by
          rw [Finset.sum_add_distrib, ← Finset.sum_mul, ← Finset.mul_sum, hk, hχ]
          ring
  have hsum : ((holeRange n i).map fun j => (r1 j).toSend.sPart).sum + (r1 i).sPart =
      k * (message + xCoordinate (k⁻¹ • gen) * x) := by
    rw [add_comm, ← hs]
    exact add_sum_holeRange (fun j => (r1 j).sPart) hi
  have hr1 : (r1 i).r = xCoordinate (k⁻¹ • gen) := congrArg xCoordinate (hR i hi)
  rw [Round1.map_finalize, hsum, hr1]
  exact congrArg (Option.map _) (fromScalars_eq_some hx hk0 hr hm)

def smallPresigning : ℕ → PresigningData SchemeParams.small.curveOrder
    (ZMod SchemeParams.small.curveOrder) :=
  fun _ => ⟨4, 1, 2⟩

theorem finalize_honest_small :
    let r1 := fun j => Round1.new Signing.smallXCoordinate (smallPresigning j) 1
      ((2 : ZMod SchemeParams.small.curveOrder) • 1)
    ((r1 0).finalize Signing.smallXCoordinate 1
        ((holeRange 2 0).map fun j => (r1 j).toSend.sPart)).map
        (Except.map Signature.splitScalars) = some (.ok (4, 4)) := by
  have hinv : (2 : ZMod SchemeParams.small.curveOrder)⁻¹ • (1 : ZMod SchemeParams.small.curveOrder)
      = 4 := by
    rw [ZMod.inv_eq_of_mul_eq_one _ 2 4 (by decide)]
    decide
  obtain ⟨hR, hr, hm⟩ : (∀ i < 2, (smallPresigning i).bigR =
        (2 : ZMod SchemeParams.small.curveOrder)⁻¹ • 1) ∧
      Signing.smallXCoordinate ((2 : ZMod SchemeParams.small.curveOrder)⁻¹ • 1) ≠ 0 ∧
      1 + Signing.smallXCoordinate ((2 : ZMod SchemeParams.small.curveOrder)⁻¹ • 1) * 2 ≠ 0 := by
    rw [hinv]
    decide
  have hk : ∑ i ∈ Finset.range 2, (smallPresigning i).k = 2 := by decide
  have hχ : ∑ i ∈ Finset.range 2, (smallPresigning i).chi = 2 * 2 := by decide
  have hk0 : (2 : ZMod SchemeParams.small.curveOrder) ≠ 0 := by decide
  have hx : (2 : ZMod SchemeParams.small.curveOrder) • (1 : ZMod SchemeParams.small.curveOrder) ≠
      0 := by decide
  haveI := SchemeParams.small_prime
  have h := finalize_honest Signing.smallXCoordinate 1 smallPresigning 1 hx hR hk hχ hk0 hr hm
    (i := 0) (by decide)
  rw [hinv] at h
  exact h

end Honest

end Synedrion.Protocols.Signing.Generic
