import Mathlib.Data.ZMod.Basic
import Mathlib.Algebra.Order.Group.Int

/-! `Signed<T>` (`uint/signed.rs`), modelled from the spec. -/

namespace Synedrion

structure Signed where
  value : ℤ
  bound : ℕ
  deriving DecidableEq

namespace Signed

def Valid (bits : ℕ) (s : Signed) : Prop := s.value.natAbs < 2 ^ s.bound ∧ s.bound ≤ bits

def zero : Signed := ⟨0, 0⟩

def checkedAdd (bits : ℕ) (a b : Signed) : Option Signed :=
  if max a.bound b.bound + 1 < bits then some ⟨a.value + b.value, max a.bound b.bound + 1⟩
  else none

def checkedMul (bits : ℕ) (a b : Signed) : Option Signed :=
  if a.bound + b.bound < bits then some ⟨a.value * b.value, a.bound + b.bound⟩ else none

def sum (bits : ℕ) (xs : List Signed) : Option Signed := xs.foldlM (checkedAdd bits) zero

def assertBound (a : Signed) (bound : ℕ) : Option Signed :=
  if a.value.natAbs < 2 ^ bound then some ⟨a.value, bound⟩ else none

def BoundedBits (b : ℕ) (s : Signed) : Prop := s.bound = b + 1 ∧ s.value.natAbs ≤ 2 ^ b

def fromScalar {q : ℕ} (orderBits : ℕ) (x : ZMod q) : Signed := ⟨x.val, orderBits⟩

def toScalar {q : ℕ} (a : Signed) : ZMod q := a.value

theorem checkedAdd_eq_some {bits : ℕ} {a b c : Signed} (h : checkedAdd bits a b = some c) :
    c.value = a.value + b.value ∧ c.bound = max a.bound b.bound + 1 ∧
      max a.bound b.bound + 1 < bits := by
  unfold checkedAdd at h
  split at h
  · cases h
    exact ⟨rfl, rfl, ‹_›⟩
  · cases h

theorem checkedAdd_isSome {bits : ℕ} {a b : Signed} (h : max a.bound b.bound + 1 < bits) :
    checkedAdd bits a b = some ⟨a.value + b.value, max a.bound b.bound + 1⟩ := by
  simp [checkedAdd, h]

theorem checkedMul_eq_some {bits : ℕ} {a b c : Signed} (h : checkedMul bits a b = some c) :
    c.value = a.value * b.value ∧ c.bound = a.bound + b.bound ∧ a.bound + b.bound < bits := by
  unfold checkedMul at h
  split at h
  · cases h
    exact ⟨rfl, rfl, ‹_›⟩
  · cases h

theorem checkedMul_isSome {bits : ℕ} {a b : Signed} (h : a.bound + b.bound < bits) :
    checkedMul bits a b = some ⟨a.value * b.value, a.bound + b.bound⟩ := by
  simp [checkedMul, h]

theorem foldlM_checkedAdd {bits b : ℕ} (xs : List Signed) (hb : ∀ x ∈ xs, x.bound = b)
    (acc : Signed) (hfit : max acc.bound b + xs.length < bits) :
    xs.foldlM (checkedAdd bits) acc =
      some ⟨acc.value + (xs.map Signed.value).sum,
        if xs = [] then acc.bound else max acc.bound b + xs.length⟩ := by
  induction xs generalizing acc with
  | nil => simp
  | cons x xs ih =>
    have hx := hb x (List.mem_cons_self _ _)
    rw [List.length_cons] at hfit
    rw [List.foldlM_cons, checkedAdd_isSome (by omega), hx]
    simp only [Option.bind_eq_bind, Option.some_bind]
    rw [ih (fun z hz => hb z (List.mem_cons_of_mem _ hz)) _ (by dsimp only; omega)]
    simp only [List.map_cons, List.sum_cons, List.length_cons, reduceCtorEq, if_false]
    congr 2
    · ring
    · cases xs with
      | nil => simp
      | cons y ys =>
        simp only [reduceCtorEq, if_false]
        omega

theorem sum_eq_some {bits b : ℕ} (xs : List Signed) (hb : ∀ x ∈ xs, x.bound = b)
    (hfit : b + xs.length < bits) :
    sum bits xs = some ⟨(xs.map Signed.value).sum, if xs = [] then 0 else b + xs.length⟩ := by
  rw [sum, foldlM_checkedAdd xs hb zero (by simpa [zero] using hfit)]
  simp [zero]

theorem value_of_foldlM_checkedAdd {bits : ℕ} (xs : List Signed) {acc s : Signed}
    (h : xs.foldlM (checkedAdd bits) acc = some s) :
    s.value = acc.value + (xs.map Signed.value).sum := by
  induction xs generalizing acc with
  | nil =>
    simp only [List.foldlM_nil, Option.pure_def, Option.some.injEq] at h
    simp [h]
  | cons x xs ih =>
    rw [List.foldlM_cons] at h
    obtain ⟨acc', hacc', hrest⟩ := Option.bind_eq_some.1 h
    rw [ih hrest, (checkedAdd_eq_some hacc').1, List.map_cons, List.sum_cons, add_assoc]

theorem value_of_sum_eq_some {bits : ℕ} {xs : List Signed} {s : Signed} (h : sum bits xs = some s) :
    s.value = (xs.map Signed.value).sum := by
  rw [value_of_foldlM_checkedAdd xs h, zero, zero_add]

theorem foldlM_checkedAdd_eq_none {bits b : ℕ} (xs : List Signed) (hb : ∀ x ∈ xs, x.bound = b)
    (hne : xs ≠ []) (acc : Signed) (hover : bits ≤ max acc.bound b + xs.length) :
    xs.foldlM (checkedAdd bits) acc = none := by
  induction xs generalizing acc with
  | nil => exact absurd rfl hne
  | cons x xs ih =>
    have hx := hb x (List.mem_cons_self _ _)
    rw [List.length_cons] at hover
    rw [List.foldlM_cons]
    by_cases hfit : max acc.bound x.bound + 1 < bits
    · rw [checkedAdd_isSome hfit]
      have hxs : xs ≠ [] := by
        rintro rfl
        simp only [List.length_nil] at hover
        omega
      exact ih (fun z hz => hb z (List.mem_cons_of_mem _ hz)) hxs _ (by dsimp only; omega)
    · simp [checkedAdd, hfit]

theorem sum_eq_none {bits b : ℕ} (xs : List Signed) (hb : ∀ x ∈ xs, x.bound = b) (hne : xs ≠ [])
    (hover : bits ≤ b + xs.length) : sum bits xs = none :=
  foldlM_checkedAdd_eq_none xs hb hne zero (by simpa [zero] using hover)

theorem lt_of_sum_eq_some {bits b : ℕ} {xs : List Signed} {s : Signed} (h : sum bits xs = some s)
    (hb : ∀ x ∈ xs, x.bound = b) (hne : xs ≠ []) : b + xs.length < bits := by
  by_contra hover
  rw [sum_eq_none xs hb hne (by omega)] at h
  cases h

theorem natAbs_sum_le {ι : Type} (l : List ι) (f : ι → ℤ) {B : ℕ}
    (h : ∀ j ∈ l, (f j).natAbs ≤ B) : (l.map f).sum.natAbs ≤ l.length * B := by
  induction l with
  | nil => simp
  | cons j l ih =>
    have hj := h j (List.mem_cons_self _ _)
    have hl := ih fun i hi => h i (List.mem_cons_of_mem _ hi)
    have := Int.natAbs_add_le (f j) (l.map f).sum
    rw [List.map_cons, List.sum_cons, List.length_cons, Nat.succ_mul]
    omega

theorem assertBound_eq_none {a : Signed} {b : ℕ} (h : 2 ^ b ≤ a.value.natAbs) :
    a.assertBound b = none := by
  simp [assertBound, not_lt.2 h]

theorem assertBound_eq_some {a : Signed} {b : ℕ} (h : a.value.natAbs < 2 ^ b) :
    a.assertBound b = some ⟨a.value, b⟩ := by
  simp [assertBound, h]

end Signed

end Synedrion
