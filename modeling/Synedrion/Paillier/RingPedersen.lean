import Synedrion.Paillier.Encryption
import Synedrion.Tools.Hashing

/-! Ring-Pedersen commitments (`paillier/ring_pedersen.rs`), modelled from the spec. -/

namespace Synedrion.Paillier

structure RPParams where
  modulus : ℕ
  base : ℕ
  power : ℕ
  one_lt_modulus : 1 < modulus
  base_unit : IsUnit (base : ZMod modulus)
  power_unit : IsUnit (power : ZMod modulus)

namespace RPParams

open Synedrion.Tools.Hashing

variable (setup : RPParams)

def toWire {Pt : Type} : Absorbed Pt := .seq [.uint setup.modulus, .uint setup.base, .uint setup.power]

instance : NeZero setup.modulus := ⟨by have := setup.one_lt_modulus; omega⟩

def commit (x r : ℤ) : ZMod setup.modulus :=
  powSigned (setup.base : ZMod setup.modulus) x * powSigned (setup.power : ZMod setup.modulus) r

theorem commit_eq_units (x r : ℤ) :
    setup.commit x r = ((setup.base_unit.unit ^ x * setup.power_unit.unit ^ r :
      (ZMod setup.modulus)ˣ) : ZMod setup.modulus) := by
  unfold commit
  conv_lhs => rw [← setup.base_unit.unit_spec, ← setup.power_unit.unit_spec]
  rw [powSigned_units, powSigned_units, Units.val_mul]

theorem isUnit_commit (x r : ℤ) : IsUnit (setup.commit x r) := by
  rw [commit_eq_units]
  exact Units.isUnit _

theorem commit_add_mul (alpha gamma x mu e : ℤ) :
    setup.commit (alpha + x * e) (gamma + mu * e) =
      setup.commit alpha gamma * powSigned (setup.commit x mu) e := by
  rw [commit_eq_units, commit_eq_units, commit_eq_units, powSigned_units, ← Units.val_mul]
  congr 1
  rw [zpow_add, zpow_add, zpow_mul, zpow_mul, mul_zpow]
  ac_rfl

def small : RPParams :=
  ⟨15, 2, 4, by decide, ⟨ZMod.unitOfCoprime 2 (by decide), rfl⟩,
    ⟨ZMod.unitOfCoprime 4 (by decide), rfl⟩⟩

end RPParams

end Synedrion.Paillier
