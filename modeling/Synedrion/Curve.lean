import Mathlib.Algebra.Module.Defs
import Mathlib.Data.ZMod.Basic

/-! Modelled from the spec: the curve adapter `curve/`, on an abstract `ZMod q`-module. -/

namespace Synedrion.Curve

variable {q : ℕ} {Pt : Type} [AddCommGroup Pt] [Module (ZMod q) Pt]

/-- Modelled from the spec: `(r, s)` and, for its recovery id, the point `R` it identifies. -/
structure RecoverableSignature (q : ℕ) (Pt : Type) where
  r : ZMod q
  s : ZMod q
  nonce : Pt

variable (xCoordinate : Pt → ZMod q) (gen : Pt)

def verifierPoint (vkey : Pt) (message r s : ZMod q) : Pt :=
  s⁻¹ • (message • gen + r • vkey)

def Verifies (vkey : Pt) (message : ZMod q) (sig : RecoverableSignature q Pt) : Prop :=
  vkey ≠ 0 ∧ sig.r ≠ 0 ∧ sig.s ≠ 0 ∧
    xCoordinate (verifierPoint gen vkey message sig.r sig.s) = sig.r

/-- Modelled from the spec: key recovery, `r⁻¹ * (R * s - g * m)`. -/
def recover (message : ZMod q) (sig : RecoverableSignature q Pt) : Pt :=
  sig.r⁻¹ • (sig.s • sig.nonce - message • gen)

variable [DecidableEq Pt]

instance (vkey : Pt) (message : ZMod q) (sig : RecoverableSignature q Pt) :
    Decidable (Verifies xCoordinate gen vkey message sig) :=
  inferInstanceAs (Decidable (_ ∧ _ ∧ _ ∧ _))

/-- Modelled from the spec: `RecoverableSignature::from_scalars`, `(r, s)` if it verifies. -/
def fromScalars (r s : ZMod q) (vkey : Pt) (message : ZMod q) :
    Option (RecoverableSignature q Pt) :=
  let sig : RecoverableSignature q Pt := ⟨r, s, verifierPoint gen vkey message r s⟩
  if Verifies xCoordinate gen vkey message sig then some sig else none

variable {xCoordinate gen}

theorem fromScalars_eq_some_iff {r s message : ZMod q} {vkey : Pt} {sig : RecoverableSignature q Pt} :
    fromScalars xCoordinate gen r s vkey message = some sig ↔
      sig = ⟨r, s, verifierPoint gen vkey message r s⟩ ∧ Verifies xCoordinate gen vkey message sig := by
  dsimp only [fromScalars]
  split_ifs with h
  · rw [Option.some_inj]
    exact ⟨fun h' => ⟨h'.symm, h' ▸ h⟩, fun ⟨hs, _⟩ => hs.symm⟩
  · exact ⟨False.elim, fun ⟨hs, hv⟩ => h (hs ▸ hv)⟩

theorem fromScalars_zero {r message : ZMod q} {vkey : Pt} :
    fromScalars xCoordinate gen r 0 vkey message = none := by
  simp [fromScalars, Verifies]

section Field

variable [Fact q.Prime]

theorem recover_of_fromScalars {r s message : ZMod q} {vkey : Pt} {sig : RecoverableSignature q Pt}
    (h : fromScalars xCoordinate gen r s vkey message = some sig) :
    Verifies xCoordinate gen vkey message sig ∧ recover gen message sig = vkey := by
  obtain ⟨rfl, hv⟩ := fromScalars_eq_some_iff.1 h
  refine ⟨hv, ?_⟩
  rw [recover, verifierPoint, smul_smul, mul_inv_cancel₀ hv.2.2.1, one_smul, add_sub_cancel_left,
    smul_smul, inv_mul_cancel₀ hv.2.1, one_smul]

omit [DecidableEq Pt] in
theorem verifierPoint_eq {k x message r : ZMod q} (hm : message + r * x ≠ 0) :
    verifierPoint gen (x • gen) message r (k * (message + r * x)) = k⁻¹ • gen := by
  rw [verifierPoint, smul_smul, ← add_smul, smul_smul, mul_inv, mul_assoc, inv_mul_cancel₀ hm,
    mul_one]

theorem fromScalars_eq_some {k x message : ZMod q} (hV : x • gen ≠ 0) (hk : k ≠ 0)
    (hr : xCoordinate (k⁻¹ • gen) ≠ 0) (hm : message + xCoordinate (k⁻¹ • gen) * x ≠ 0) :
    fromScalars xCoordinate gen (xCoordinate (k⁻¹ • gen)) (k * (message + xCoordinate (k⁻¹ • gen) * x))
      (x • gen) message =
      some ⟨xCoordinate (k⁻¹ • gen), k * (message + xCoordinate (k⁻¹ • gen) * x), k⁻¹ • gen⟩ := by
  rw [fromScalars, verifierPoint_eq hm]
  exact if_pos ⟨hV, hr, mul_ne_zero hk hm, by rw [verifierPoint_eq hm]⟩

end Field

end Synedrion.Curve
