import Synedrion.Params
import Synedrion.Paillier.Keys
import Synedrion.Uint.Signed
import Mathlib.Algebra.BigOperators.Group.Finset

/-! What the protocols share (`cggmp21/protocols/common.rs`, modelled from the spec). -/

namespace Synedrion.Protocols

open Synedrion.Paillier Synedrion.Paillier.Ciphertext

def holeRange (n i : ℕ) : List ℕ := (List.range n).filter fun j => j != i

@[simp] theorem mem_holeRange {n i j : ℕ} : j ∈ holeRange n i ↔ j < n ∧ j ≠ i := by
  simp [holeRange]

theorem nodup_holeRange (n i : ℕ) : (holeRange n i).Nodup :=
  (List.nodup_range n).filter _

theorem sum_holeRange {M : Type} [AddCommMonoid M] (f : ℕ → M) (n i : ℕ) :
    ((holeRange n i).map f).sum = ∑ j ∈ (Finset.range n).erase i, f j := by
  rw [← List.sum_toFinset f (nodup_holeRange n i)]
  congr 1
  ext j
  simp [and_comm]

theorem sum_range_list {M : Type} [AddCommMonoid M] (f : ℕ → M) (n : ℕ) :
    ((List.range n).map f).sum = ∑ j ∈ Finset.range n, f j := by
  rw [← List.sum_toFinset f (List.nodup_range n)]
  congr 1
  ext j
  simp

theorem length_holeRange {n i : ℕ} (h : i < n) : (holeRange n i).length = n - 1 := by
  have := sum_holeRange (fun _ => 1) n i
  rw [List.map_const', List.sum_replicate, smul_eq_mul, mul_one, Finset.sum_const,
    Finset.card_erase_of_mem (Finset.mem_range.2 h), Finset.card_range, smul_eq_mul, mul_one] at this
  exact this

theorem holeRange_ne_nil {n i : ℕ} (h : i < n) (hn : 2 ≤ n) : holeRange n i ≠ [] := by
  intro hnil
  have := length_holeRange h
  rw [hnil, List.length_nil] at this
  omega

theorem add_sum_holeRange {M : Type} [AddCommMonoid M] (f : ℕ → M) {n i : ℕ} (h : i < n) :
    f i + ((holeRange n i).map f).sum = ∑ j ∈ Finset.range n, f j := by
  rw [sum_holeRange, Finset.add_sum_erase _ _ (Finset.mem_range.2 h)]

theorem sum_sum_holeRange_sub {G : Type} [AddCommGroup G] (f : ℕ → ℕ → G) (n : ℕ) :
    ∑ i ∈ Finset.range n, ((holeRange n i).map fun j => f i j - f j i).sum = 0 := by
  simp only [sum_holeRange, Finset.sum_sub_distrib]
  rw [sub_eq_zero]
  exact Finset.sum_comm' fun x y => by simp only [Finset.mem_erase, Finset.mem_range]; tauto

theorem encrypts_foldl {N : ℕ} [NeZero N] (capD capF : ℕ → ℕ) {alpha beta : ℕ → ℤ} (l : List ℕ)
    (hD : ∀ j ∈ l, Encrypts N (capD j) (alpha j)) (hF : ∀ j ∈ l, Encrypts N (capF j) (beta j))
    {c : ℕ} {a : ℤ} (hc : Encrypts N c a) :
    Encrypts N (l.foldl (fun c j => homomorphicAdd N (homomorphicAdd N c (capD j)) (capF j)) c)
      (a + (l.map alpha).sum + (l.map beta).sum) := by
  induction l generalizing c a with
  | nil => simpa using hc
  | cons j l ih =>
    have hj := (hc.homomorphicAdd (hD j (List.mem_cons_self _ _))).homomorphicAdd
      (hF j (List.mem_cons_self _ _))
    have := ih (fun i hi => hD i (List.mem_cons_of_mem _ hi))
      (fun i hi => hF i (List.mem_cons_of_mem _ hi)) hj
    simp only [List.foldl_cons, List.map_cons, List.sum_cons]
    convert this using 1
    omega

structure PublicAux where
  paillierPk : ℕ

structure KeyShare (P : SchemeParams) (Pt : Type) where
  index : ℕ
  numParties : ℕ
  secretShare : ZMod P.curveOrder
  publicShares : ℕ → Pt
  paillierSk : SecretKey P.primeBits
  publicAux : ℕ → PublicAux

def KeyShare.verifyingKeyAsPoint {P : SchemeParams} {Pt : Type} [AddCommMonoid Pt]
    (keyShare : KeyShare P Pt) : Pt :=
  ((List.range keyShare.numParties).map keyShare.publicShares).sum

structure PresigningData (P : SchemeParams) (Pt : Type) where
  nonce : Pt
  ephemeralScalarShare : ZMod P.curveOrder
  productShare : ZMod P.curveOrder
  hatBeta : ℕ → Signed
  hatR : ℕ → ℕ
  hatS : ℕ → ℕ
  capK : ℕ
  hatCapD : ℕ → ℕ
  hatCapF : ℕ → ℕ

end Synedrion.Protocols
