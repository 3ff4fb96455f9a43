import Mathlib.Data.List.Basic
import Mathlib.Tactic.Linarith
import Mathlib.Tactic.Ring

/-! Big-endian byte strings of fixed-width integers. -/

namespace Synedrion.Tools.Bytes

def toBeBytes : ℕ → ℕ → List UInt8
  | 0, _ => []
  | k + 1, n => toBeBytes k (n / 256) ++ [UInt8.ofNat n]

def fromBeBytes (bs : List UInt8) : ℕ := bs.foldl (fun acc b => acc * 256 + b.toNat) 0

@[simp] theorem length_toBeBytes (k n : ℕ) : (toBeBytes k n).length = k := by
  induction k generalizing n <;> simp [toBeBytes, *]

theorem foldl_fromBeBytes (a : ℕ) (bs : List UInt8) :
    bs.foldl (fun acc b => acc * 256 + b.toNat) a = a * 256 ^ bs.length + fromBeBytes bs := by
  induction bs generalizing a with
  | nil => simp [fromBeBytes]
  | cons b bs ih =>
    have h : fromBeBytes (b :: bs) = b.toNat * 256 ^ bs.length + fromBeBytes bs := by
      rw [fromBeBytes, List.foldl_cons, ih]
      ring
    rw [List.foldl_cons, ih, h, List.length_cons, pow_succ]
    ring

@[simp] theorem fromBeBytes_singleton (b : UInt8) : fromBeBytes [b] = b.toNat := by
  simp [fromBeBytes]

theorem fromBeBytes_append (xs ys : List UInt8) :
    fromBeBytes (xs ++ ys) = fromBeBytes xs * 256 ^ ys.length + fromBeBytes ys := by
  rw [fromBeBytes, List.foldl_append, foldl_fromBeBytes]
  rfl

@[simp] theorem fromBeBytes_toBeBytes (k n : ℕ) : fromBeBytes (toBeBytes k n) = n % 256 ^ k := by
  induction k generalizing n with
  | zero => simp [toBeBytes, fromBeBytes, Nat.mod_one]
  | succ k ih =>
    rw [toBeBytes, fromBeBytes_append, ih, fromBeBytes_singleton, List.length_singleton, pow_one,
      pow_succ, mul_comm (256 ^ k), Nat.mod_mul]
    change _ + n % 256 = _
    ring

theorem toBeBytes_add (k m n : ℕ) :
    toBeBytes (k + m) n = toBeBytes k (n / 256 ^ m) ++ toBeBytes m n := by
  induction m generalizing n with
  | zero => simp [toBeBytes]
  | succ m ih =>
    rw [← Nat.add_assoc, toBeBytes, ih, toBeBytes, List.append_assoc, Nat.div_div_eq_div_mul,
      ← pow_succ']

theorem drop_toBeBytes {k m : ℕ} (h : m ≤ k) (n : ℕ) :
    (toBeBytes k n).drop (k - m) = toBeBytes m n := by
  obtain ⟨j, rfl⟩ := Nat.exists_eq_add_of_le' h
  rw [Nat.add_sub_cancel, toBeBytes_add]
  exact List.drop_left' (length_toBeBytes _ _)

theorem take_toBeBytes {k m : ℕ} (h : m ≤ k) (n : ℕ) :
    (toBeBytes k n).take (k - m) = toBeBytes (k - m) (n / 256 ^ m) := by
  obtain ⟨j, rfl⟩ := Nat.exists_eq_add_of_le' h
  rw [Nat.add_sub_cancel, toBeBytes_add]
  exact List.take_left' (length_toBeBytes _ _)

theorem toBeBytes_inj {k m n : ℕ} (hm : m < 256 ^ k) (hn : n < 256 ^ k)
    (h : toBeBytes k m = toBeBytes k n) : m = n := by
  have := congrArg fromBeBytes h
  rwa [fromBeBytes_toBeBytes, fromBeBytes_toBeBytes, Nat.mod_eq_of_lt hm,
    Nat.mod_eq_of_lt hn] at this

end Synedrion.Tools.Bytes
