import Synedrion.Protocols.KeyRefresh
import Mathlib.Algebra.BigOperators.Fin

/-! The key shares of all parties across any run of key refreshes. -/

namespace Synedrion.Protocols.KeyRefresh

open Synedrion.Paillier

variable {P : SchemeParams} {Pt : Type} [AddCommGroup Pt] [Module (ZMod P.curveOrder) Pt] (g : Pt)

structure Consistent (pub : List (KeySharePublic Pt)) (shares : ℕ → KeyShare P Pt) : Prop where
  public_eq : ∀ i < pub.length, (shares i).public = pub
  index_eq : ∀ i < pub.length, (shares i).index = i
  agrees : ∀ i < pub.length, (shares i).Agrees g

structure Refresh (cpub : List (KeyShareChangePublic Pt)) (changes : ℕ → KeyShareChange P Pt) :
    Prop where
  public_eq : ∀ i < cpub.length, (changes i).public = cpub
  index_eq : ∀ i < cpub.length, (changes i).index = i
  agrees : ∀ i < cpub.length, (changes i).Agrees g
  sum_eq_zero : (cpub.map (·.sharePk)).sum = 0

def updateAll (shares : ℕ → KeyShare P Pt) (changes : ℕ → KeyShareChange P Pt) :
    ℕ → KeyShare P Pt :=
  fun i => (shares i).update (changes i)

def updatePublic (pub : List (KeySharePublic Pt)) (cpub : List (KeyShareChangePublic Pt)) :
    List (KeySharePublic Pt) :=
  (pub.zip cpub).map fun (p, c) => KeySharePublic.ofChange p.sharePk c

@[simp] theorem length_updatePublic (pub : List (KeySharePublic Pt))
    (cpub : List (KeyShareChangePublic Pt)) :
    (updatePublic pub cpub).length = min pub.length cpub.length := by
  simp [updatePublic]

omit [Module (ZMod P.curveOrder) Pt] in
@[simp] theorem shareSk_updateAll (shares : ℕ → KeyShare P Pt) (changes : ℕ → KeyShareChange P Pt)
    (i : ℕ) :
    (updateAll shares changes i).secret.shareSk =
      (shares i).secret.shareSk + (changes i).secret.shareSk := rfl

variable {g}

theorem sum_map_eq_sum_range {α M : Type} [AddCommMonoid M] {l : List α} {f : α → M} {h : ℕ → M}
    (hf : ∀ i (hi : i < l.length), f l[i] = h i) :
    (l.map f).sum = ∑ i ∈ Finset.range l.length, h i := by
  rw [Finset.sum_range, ← Fin.sum_univ_get']
  exact Finset.sum_congr rfl fun i _ => hf i i.2

theorem sharePk_of_agrees {ks : KeyShare P Pt} {pub : List (KeySharePublic Pt)} {i : ℕ}
    (hpub : ks.public = pub) (hidx : ks.index = i) (hi : i < pub.length) (h : ks.Agrees g) :
    pub[i].sharePk = ks.secret.shareSk • g := by
  rw [KeyShare.Agrees, hpub, hidx, List.getElem?_eq_getElem hi, Option.map_some'] at h
  exact Option.some_injective _ h

theorem sharePk_of_changeAgrees {ch : KeyShareChange P Pt} {cpub : List (KeyShareChangePublic Pt)}
    {i : ℕ} (hpub : ch.public = cpub) (hidx : ch.index = i) (hi : i < cpub.length)
    (h : ch.Agrees g) : cpub[i].sharePk = ch.secret.shareSk • g := by
  rw [KeyShareChange.Agrees, hpub, hidx, List.getElem?_eq_getElem hi, Option.map_some'] at h
  exact Option.some_injective _ h

variable {pub : List (KeySharePublic Pt)} {shares : ℕ → KeyShare P Pt}
  {cpub : List (KeyShareChangePublic Pt)} {changes : ℕ → KeyShareChange P Pt}

theorem Refresh.sum_shareSk_eq_zero [Fact P.curveOrder.Prime] (hg : g ≠ 0)
    (hr : Refresh g cpub changes) :
    ∑ j ∈ Finset.range cpub.length, (changes j).secret.shareSk = 0 := by
  have hc0 : (∑ j ∈ Finset.range cpub.length, (changes j).secret.shareSk) • g = 0 := by
    rw [Finset.sum_smul, ← hr.sum_eq_zero]
    exact (sum_map_eq_sum_range fun j hj =>
      sharePk_of_changeAgrees (hr.public_eq j hj) (hr.index_eq j hj) hj (hr.agrees j hj)).symm
  exact (smul_eq_zero.1 hc0).resolve_right hg

namespace Consistent

theorem verifyingKeyAsPoint_eq (hc : Consistent g pub shares) {i : ℕ} (hi : i < pub.length) :
    (shares i).verifyingKeyAsPoint =
      (∑ j ∈ Finset.range pub.length, (shares j).secret.shareSk) • g := by
  rw [KeyShare.verifyingKeyAsPoint, hc.public_eq i hi, Finset.sum_smul]
  exact sum_map_eq_sum_range fun j hj =>
    sharePk_of_agrees (hc.public_eq j hj) (hc.index_eq j hj) hj (hc.agrees j hj)

variable (hc : Consistent g pub shares) (hr : Refresh g cpub changes)
  (hlen : cpub.length = pub.length)
include hc hr hlen

theorem updateAll : Consistent g (updatePublic pub cpub) (updateAll shares changes) where
  public_eq i hi := by
    rw [length_updatePublic, hlen, min_self] at hi
    simp only [KeyRefresh.updateAll, KeyShare.update, updatePublic, hc.public_eq i hi,
      hr.public_eq i (hlen ▸ hi)]
  index_eq i hi := by
    rw [length_updatePublic, hlen, min_self] at hi
    exact hr.index_eq i (hlen ▸ hi)
  agrees i hi := by
    rw [length_updatePublic, hlen, min_self] at hi
    exact KeyShare.agrees_update ((hr.index_eq i (hlen ▸ hi)).trans (hc.index_eq i hi).symm)
      (hc.agrees i hi) (hr.agrees i (hlen ▸ hi))

theorem verifyingKeyAsPoint_updateAll {i : ℕ} (hi : i < pub.length) :
    (KeyRefresh.updateAll shares changes i).verifyingKeyAsPoint = (shares i).verifyingKeyAsPoint :=
  KeyShare.verifyingKeyAsPoint_update (by rw [hr.public_eq i (hlen ▸ hi)]; exact hr.sum_eq_zero)
    (by rw [hr.public_eq i (hlen ▸ hi), hc.public_eq i hi, hlen])

end Consistent

variable (P) (g) (n : ℕ)

structure Parties where
  shares : ℕ → KeyShare P Pt
  pub : List (KeySharePublic Pt)
  length_pub : pub.length = n
  consistent : Consistent g pub shares

structure RefreshData where
  changes : ℕ → KeyShareChange P Pt
  cpub : List (KeyShareChangePublic Pt)
  length_cpub : cpub.length = n
  refresh : Refresh g cpub changes

def smallParties : Parties SchemeParams.small (1 : ZMod SchemeParams.small.curveOrder) 2 where
  shares i := ⟨i, ⟨if i = 0 then 2 else 3, SecretKey.small, 0⟩, [⟨2, 0, 0, 0, 0⟩, ⟨3, 0, 0, 0, 0⟩]⟩
  pub := [⟨2, 0, 0, 0, 0⟩, ⟨3, 0, 0, 0, 0⟩]
  length_pub := rfl
  consistent := ⟨fun _ _ => rfl, fun _ _ => rfl, by decide⟩

def smallRefresh : RefreshData SchemeParams.small (1 : ZMod SchemeParams.small.curveOrder) 2 where
  changes i := ⟨i, ⟨if i = 0 then 3 else 4, SecretKey.small, 0⟩, smallChange.public⟩
  cpub := smallChange.public
  length_cpub := rfl
  refresh := ⟨fun _ _ => rfl, fun _ _ => rfl, by decide, by decide⟩

variable {P g n}

namespace Parties

def refresh (s : Parties P g n) (r : RefreshData P g n) : Parties P g n where
  shares := updateAll s.shares r.changes
  pub := updatePublic s.pub r.cpub
  length_pub := by rw [length_updatePublic, s.length_pub, r.length_cpub, min_self]
  consistent := s.consistent.updateAll r.refresh (r.length_cpub.trans s.length_pub.symm)

@[simp] theorem shares_refresh (s : Parties P g n) (r : RefreshData P g n) :
    (s.refresh r).shares = updateAll s.shares r.changes := rfl

def verifyingKey (s : Parties P g n) (i : ℕ) : Pt := (s.shares i).verifyingKeyAsPoint

def secret (s : Parties P g n) : ZMod P.curveOrder := ∑ j ∈ Finset.range n, (s.shares j).secret.shareSk

/-- Every party's verifying key is `g` times the shared secret, so all parties hold one key. -/
theorem verifyingKey_eq (s : Parties P g n) {i : ℕ} (hi : i < n) :
    s.verifyingKey i = s.secret • g := by
  have h := s.consistent.verifyingKeyAsPoint_eq (hi.trans_eq s.length_pub.symm)
  rwa [s.length_pub] at h

theorem verifyingKey_eq_small : smallParties.verifyingKey 0 = smallParties.secret • 1 :=
  verifyingKey_eq smallParties (by decide)

theorem verifyingKey_refresh (s : Parties P g n) (r : RefreshData P g n) {i : ℕ} (hi : i < n) :
    (s.refresh r).verifyingKey i = s.verifyingKey i :=
  s.consistent.verifyingKeyAsPoint_updateAll r.refresh (r.length_cpub.trans s.length_pub.symm)
    (hi.trans_eq s.length_pub.symm)

theorem secret_refresh [Fact P.curveOrder.Prime] (hg : g ≠ 0) (s : Parties P g n)
    (r : RefreshData P g n) : (s.refresh r).secret = s.secret := by
  have h0 := r.refresh.sum_shareSk_eq_zero hg
  rw [r.length_cpub] at h0
  simp only [secret, shares_refresh, shareSk_updateAll, Finset.sum_add_distrib, h0, add_zero]

def refreshAll (s : Parties P g n) (rs : List (RefreshData P g n)) : Parties P g n :=
  rs.foldl refresh s

@[simp] theorem refreshAll_cons (s : Parties P g n) (r : RefreshData P g n)
    (rs : List (RefreshData P g n)) : s.refreshAll (r :: rs) = (s.refresh r).refreshAll rs := rfl

/-- Every party keeps its verifying key over any run of refreshes. -/
theorem verifyingKey_refreshAll (s : Parties P g n) (rs : List (RefreshData P g n)) {i : ℕ}
    (hi : i < n) : (s.refreshAll rs).verifyingKey i = s.verifyingKey i := by
  induction rs generalizing s with
  | nil => rfl
  | cons r rs ih => rw [refreshAll_cons, ih, verifyingKey_refresh _ _ hi]

theorem verifyingKey_refreshAll_small :
    (smallParties.refreshAll [smallRefresh, smallRefresh]).verifyingKey 0 =
      smallParties.verifyingKey 0 :=
  verifyingKey_refreshAll smallParties _ (by decide)

/-- The parties keep their shared secret over any run of refreshes. -/
theorem secret_refreshAll [Fact P.curveOrder.Prime] (hg : g ≠ 0) (s : Parties P g n)
    (rs : List (RefreshData P g n)) : (s.refreshAll rs).secret = s.secret := by
  induction rs generalizing s with
  | nil => rfl
  | cons r rs ih => rw [refreshAll_cons, ih, secret_refresh hg]

theorem secret_refreshAll_small :
    (smallParties.refreshAll [smallRefresh, smallRefresh]).secret = smallParties.secret := by
  have hg : (1 : ZMod SchemeParams.small.curveOrder) ≠ 0 := by decide
  haveI := SchemeParams.small_prime
  exact secret_refreshAll hg smallParties _

end Parties

end Synedrion.Protocols.KeyRefresh
