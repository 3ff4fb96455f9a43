import Synedrion.Params
import Synedrion.Paillier.Keys
import Mathlib.Algebra.BigOperators.Group.List
import Mathlib.Algebra.Module.Defs
import Mathlib.Algebra.Lie.OfAssociative

/-! The key share of `protocols/common.rs` and what a key refresh does to it. -/

namespace Synedrion.Protocols.KeyRefresh

open Synedrion.Paillier

structure KeyShareSeed (P : SchemeParams) (Pt : Type) where
  shareSk : ZMod P.curveOrder
  sharePk : List Pt

structure KeyShareSecret (P : SchemeParams) where
  shareSk : ZMod P.curveOrder
  paillierSk : SecretKey P.primeBits
  elGamalSk : ZMod P.curveOrder

structure KeySharePublic (Pt : Type) where
  sharePk : Pt
  elGamalPk : Pt
  paillierPk : ℕ
  rpGenerator : ℕ
  rpPower : ℕ

structure KeyShare (P : SchemeParams) (Pt : Type) where
  index : ℕ
  secret : KeyShareSecret P
  public : List (KeySharePublic Pt)

structure KeyShareChangeSecret (P : SchemeParams) where
  shareSk : ZMod P.curveOrder
  paillierSk : SecretKey P.primeBits
  elGamalSk : ZMod P.curveOrder

structure KeyShareChangePublic (Pt : Type) where
  sharePk : Pt
  elGamalPk : Pt
  paillierPk : ℕ
  rpGenerator : ℕ
  rpPower : ℕ

structure KeyShareChange (P : SchemeParams) (Pt : Type) where
  index : ℕ
  secret : KeyShareChangeSecret P
  public : List (KeyShareChangePublic Pt)

variable {P : SchemeParams} {Pt : Type} [AddCommGroup Pt]

def KeyShareSecret.ofChange (shareSk : ZMod P.curveOrder) (change : KeyShareChangeSecret P) :
    KeyShareSecret P :=
  ⟨shareSk + change.shareSk, change.paillierSk, change.elGamalSk⟩

def KeySharePublic.ofChange (sharePk : Pt) (change : KeyShareChangePublic Pt) : KeySharePublic Pt :=
  ⟨sharePk + change.sharePk, change.elGamalPk, change.paillierPk, change.rpGenerator,
    change.rpPower⟩

namespace KeyShare

def new (seed : KeyShareSeed P Pt) (change : KeyShareChange P Pt) : KeyShare P Pt where
  index := change.index
  secret := KeyShareSecret.ofChange seed.shareSk change.secret
  public := (seed.sharePk.zip change.public).map fun (seedSharePk, changePublic) =>
    KeySharePublic.ofChange seedSharePk changePublic

def update (self : KeyShare P Pt) (change : KeyShareChange P Pt) : KeyShare P Pt where
  index := change.index
  secret := KeyShareSecret.ofChange self.secret.shareSk change.secret
  public := (self.public.zip change.public).map fun (selfPublic, changePublic) =>
    KeySharePublic.ofChange selfPublic.sharePk changePublic

def verifyingKeyAsPoint (self : KeyShare P Pt) : Pt := (self.public.map (·.sharePk)).sum

def numParties (self : KeyShare P Pt) : ℕ := self.public.length

def partyIndex (self : KeyShare P Pt) : ℕ := self.index

end KeyShare

section Agreement

variable [Module (ZMod P.curveOrder) Pt] (g : Pt)

def KeyShare.Agrees (ks : KeyShare P Pt) : Prop :=
  ks.public[ks.index]?.map (·.sharePk) = some (ks.secret.shareSk • g)

def KeyShareChange.Agrees (ch : KeyShareChange P Pt) : Prop :=
  ch.public[ch.index]?.map (·.sharePk) = some (ch.secret.shareSk • g)

variable [DecidableEq Pt]

instance (ks : KeyShare P Pt) : Decidable (ks.Agrees g) := inferInstanceAs (Decidable (_ = _))

instance (ch : KeyShareChange P Pt) : Decidable (ch.Agrees g) := inferInstanceAs (Decidable (_ = _))

end Agreement

theorem map_sharePk_zip {α : Type} (f : α → Pt) (l : List α) (cs : List (KeyShareChangePublic Pt)) :
    ((l.zip cs).map fun (a, c) => KeySharePublic.ofChange (f a) c).map (·.sharePk) =
      List.zipWith (· + ·) (l.map f) (cs.map (·.sharePk)) := by
  induction l generalizing cs with
  | nil => simp
  | cons a l ih =>
    cases cs with
    | nil => simp
    | cons c cs =>
      simp only [List.zip_cons_cons, List.map_cons, List.zipWith_cons_cons, ih]
      rfl

theorem sum_map_sharePk_zip {α : Type} (f : α → Pt) {l : List α}
    {cs : List (KeyShareChangePublic Pt)} (hlen : cs.length = l.length)
    (hsum : (cs.map (·.sharePk)).sum = 0) :
    (((l.zip cs).map fun (a, c) => KeySharePublic.ofChange (f a) c).map (·.sharePk)).sum =
      (l.map f).sum := by
  rw [map_sharePk_zip, ← List.sum_add_sum_eq_sum_zipWith_of_length_eq _ _ (by simp [hlen]),
    hsum, add_zero]

theorem getElem?_zip_ofChange {α : Type} (f : α → Pt) {l : List α}
    {cs : List (KeyShareChangePublic Pt)} {i : ℕ} {a : α} {c : KeyShareChangePublic Pt}
    (ha : l[i]? = some a) (hc : cs[i]? = some c) :
    ((l.zip cs).map fun (a, c) => KeySharePublic.ofChange (f a) c)[i]? =
      some (KeySharePublic.ofChange (f a) c) := by
  rw [List.getElem?_map, (List.getElem?_zip_eq_some (z := (a, c))).2 ⟨ha, hc⟩]
  rfl

namespace KeyShare

theorem length_update (ks : KeyShare P Pt) (ch : KeyShareChange P Pt) :
    (ks.update ch).public.length = min ks.public.length ch.public.length := by
  simp [update]

theorem length_new (seed : KeyShareSeed P Pt) (ch : KeyShareChange P Pt) :
    (new seed ch).public.length = min seed.sharePk.length ch.public.length := by
  simp [new]

variable {ch : KeyShareChange P Pt} (hsum : (ch.public.map (·.sharePk)).sum = 0)
include hsum

theorem verifyingKeyAsPoint_update {ks : KeyShare P Pt} (hlen : ch.public.length = ks.public.length) :
    (ks.update ch).verifyingKeyAsPoint = ks.verifyingKeyAsPoint :=
  sum_map_sharePk_zip _ hlen hsum

theorem verifyingKeyAsPoint_new {seed : KeyShareSeed P Pt}
    (hlen : ch.public.length = seed.sharePk.length) :
    (new seed ch).verifyingKeyAsPoint = seed.sharePk.sum := by
  rw [verifyingKeyAsPoint, new, sum_map_sharePk_zip (fun x => x) hlen hsum, List.map_id']

end KeyShare

section Agreement

variable [Module (ZMod P.curveOrder) Pt] {g : Pt}

theorem agrees_ofChange {α : Type} (f : α → Pt) {l : List α} {ch : KeyShareChange P Pt}
    {sk : ZMod P.curveOrder} (hl : (l[ch.index]?).map f = some (sk • g)) (hch : ch.Agrees g) :
    ((l.zip ch.public).map fun (a, c) => KeySharePublic.ofChange (f a) c)[ch.index]?.map
        (·.sharePk) = some ((KeyShareSecret.ofChange sk ch.secret).shareSk • g) := by
  obtain ⟨a, ha, hfa⟩ := Option.map_eq_some'.1 hl
  obtain ⟨c, hc, hpk⟩ := Option.map_eq_some'.1 hch
  rw [getElem?_zip_ofChange f ha hc, Option.map_some', KeyShareSecret.ofChange, add_smul,
    KeySharePublic.ofChange, ← hfa, ← hpk]

theorem KeyShare.agrees_update {ks : KeyShare P Pt} {ch : KeyShareChange P Pt}
    (hidx : ch.index = ks.index) (hks : ks.Agrees g) (hch : ch.Agrees g) :
    (ks.update ch).Agrees g := by
  have hl : (ks.public[ch.index]?).map (·.sharePk) = some (ks.secret.shareSk • g) := by
    rw [hidx]
    exact hks
  exact agrees_ofChange _ hl hch

theorem KeyShare.agrees_new {seed : KeyShareSeed P Pt} {ch : KeyShareChange P Pt}
    (hseed : seed.sharePk[ch.index]? = some (seed.shareSk • g)) (hch : ch.Agrees g) :
    (KeyShare.new seed ch).Agrees g :=
  agrees_ofChange (fun x => x) (by rw [Option.map_id']; exact hseed) hch

/-- `KeyShare::update` and `KeyShare::new` keep the key-share invariants. -/
theorem refresh_invariants (g : Pt) (ch : KeyShareChange P Pt)
    (hsum : (ch.public.map (·.sharePk)).sum = 0) :
    (∀ ks : KeyShare P Pt, ch.public.length = ks.public.length → ch.index = ks.index →
      (ks.update ch).public.length = ks.public.length ∧
        (ks.update ch).verifyingKeyAsPoint = ks.verifyingKeyAsPoint ∧
        (ks.Agrees g → ch.Agrees g → (ks.update ch).Agrees g)) ∧
    (∀ seed : KeyShareSeed P Pt, seed.sharePk.length = ch.public.length →
      (KeyShare.new seed ch).public.length = seed.sharePk.length ∧
        (KeyShare.new seed ch).verifyingKeyAsPoint = seed.sharePk.sum ∧
        (seed.sharePk[ch.index]? = some (seed.shareSk • g) → ch.Agrees g →
          (KeyShare.new seed ch).Agrees g)) :=
  ⟨fun ks hlen hidx => ⟨by rw [KeyShare.length_update, hlen, min_self],
      KeyShare.verifyingKeyAsPoint_update hsum hlen, KeyShare.agrees_update hidx⟩,
    fun seed hlen => ⟨by rw [KeyShare.length_new, hlen, min_self],
      KeyShare.verifyingKeyAsPoint_new hsum hlen.symm, KeyShare.agrees_new⟩⟩

def smallChange : KeyShareChange SchemeParams.small (ZMod SchemeParams.small.curveOrder) :=
  ⟨0, ⟨3, SecretKey.small, 0⟩, [⟨3, 0, 0, 0, 0⟩, ⟨4, 0, 0, 0, 0⟩]⟩

theorem refresh_invariants_small :
    (smallChange.public.map (·.sharePk)).sum = 0 ∧
      (∀ ks : KeyShare SchemeParams.small (ZMod SchemeParams.small.curveOrder),
        smallChange.public.length = ks.public.length → smallChange.index = ks.index →
        (ks.update smallChange).public.length = ks.public.length ∧
          (ks.update smallChange).verifyingKeyAsPoint = ks.verifyingKeyAsPoint ∧
          (ks.Agrees 1 → smallChange.Agrees 1 → (ks.update smallChange).Agrees 1)) ∧
      (∀ seed : KeyShareSeed SchemeParams.small (ZMod SchemeParams.small.curveOrder),
        seed.sharePk.length = smallChange.public.length →
        (KeyShare.new seed smallChange).public.length = seed.sharePk.length ∧
          (KeyShare.new seed smallChange).verifyingKeyAsPoint = seed.sharePk.sum ∧
          (seed.sharePk[smallChange.index]? = some (seed.shareSk • 1) → smallChange.Agrees 1 →
            (KeyShare.new seed smallChange).Agrees 1)) :=
  ⟨by decide, refresh_invariants 1 smallChange (by decide)⟩

end Agreement

end Synedrion.Protocols.KeyRefresh
