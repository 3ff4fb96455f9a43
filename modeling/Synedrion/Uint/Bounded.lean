import Mathlib.Data.Nat.Size
import Mathlib.Data.BitVec
import Synedrion.Tools.Bytes

/-! `Bounded<T>` of `uint/bounded.rs` and its packed form. -/

namespace Synedrion

abbrev Uint (w : ℕ) := BitVec (8 * w)

namespace Uint

def bits (x : Uint w) : ℕ := x.toNat.size

def addMod (a b p : Uint w) : Uint w :=
  BitVec.ofNat _ (if a.toNat + b.toNat < p.toNat then a.toNat + b.toNat
    else a.toNat + b.toNat - p.toNat)

def intoWide (a : Uint w) : Uint (2 * w) := a.setWidth _

def mulWide (a b : Uint w) : Uint (2 * w) := a.intoWide * b.intoWide

def toBeBytes (x : Uint w) : List UInt8 := Tools.Bytes.toBeBytes w x.toNat

def fromBeBytes (bs : List UInt8) : Uint w := BitVec.ofNat _ (Tools.Bytes.fromBeBytes bs)

theorem bits_le_iff {x : Uint w} {b : ℕ} : x.bits ≤ b ↔ x.toNat < 2 ^ b := Nat.size_le

theorem bits_le_width (x : Uint w) : x.bits ≤ 8 * w := bits_le_iff.2 x.isLt

@[simp] theorem toNat_intoWide (a : Uint w) : a.intoWide.toNat = a.toNat := by
  rw [intoWide, BitVec.toNat_setWidth, Nat.mod_eq_of_lt]
  calc a.toNat < 2 ^ (8 * w) := a.isLt
    _ ≤ 2 ^ (8 * (2 * w)) := Nat.pow_le_pow_right (by norm_num) (by omega)

@[simp] theorem toNat_mulWide (a b : Uint w) : (a.mulWide b).toNat = a.toNat * b.toNat := by
  rw [mulWide, BitVec.toNat_mul, toNat_intoWide, toNat_intoWide, Nat.mod_eq_of_lt]
  calc a.toNat * b.toNat < 2 ^ (8 * w) * 2 ^ (8 * w) := Nat.mul_lt_mul'' a.isLt b.isLt
    _ = 2 ^ (8 * (2 * w)) := by rw [← pow_add]; ring_nf

@[simp] theorem length_toBeBytes (x : Uint w) : x.toBeBytes.length = w :=
  Tools.Bytes.length_toBeBytes _ _

theorem fromBeBytes_pad {x : Uint w} {m : ℕ} (hm : m ≤ w) (hx : x.toNat < 256 ^ m) :
    fromBeBytes (((0 : Uint w).toBeBytes).take (w - m) ++ x.toBeBytes.drop (w - m)) = x := by
  apply BitVec.eq_of_toNat_eq
  rw [fromBeBytes, toBeBytes, toBeBytes, Tools.Bytes.take_toBeBytes hm,
    Tools.Bytes.drop_toBeBytes hm, Tools.Bytes.fromBeBytes_append, Tools.Bytes.fromBeBytes_toBeBytes,
    Tools.Bytes.fromBeBytes_toBeBytes, BitVec.toNat_ofNat]
  simp [Nat.mod_eq_of_lt hx, Nat.mod_eq_of_lt x.isLt]

end Uint

structure Bounded (w : ℕ) where
  bound : ℕ
  value : Uint w
  deriving DecidableEq

structure PackedBounded where
  bound : ℕ
  bytes : List UInt8
  deriving DecidableEq

namespace Bounded

def Valid (b : Bounded w) : Prop := b.value.bits ≤ b.bound ∧ b.bound ≤ 8 * w

instance : DecidablePred (@Valid w) := fun _ => inferInstanceAs (Decidable (_ ∧ _))

def new (value : Uint w) (bound : ℕ) : Option (Bounded w) :=
  if bound > 8 * w ∨ value.bits > bound then none else some ⟨bound, value⟩

def addMod (a b : Bounded w) (modulus : Uint w) : Bounded w :=
  ⟨modulus.bits, a.value.addMod b.value modulus⟩

def intoWide (a : Bounded w) : Bounded (2 * w) := ⟨a.bound, a.value.intoWide⟩

def mulWide (a b : Bounded w) : Bounded (2 * w) := ⟨a.bound + b.bound, a.value.mulWide b.value⟩

def checkedAdd (a b : Bounded w) : Option (Bounded w) :=
  let bound := max a.bound b.bound + 1
  if bound < 8 * w then some ⟨bound, a.value + b.value⟩ else none

def checkedMul (a b : Bounded w) : Option (Bounded w) :=
  let bound := a.bound + b.bound
  if bound < 8 * w then some ⟨bound, a.value * b.value⟩ else none

def conditionalSelect (a b : Bounded w) (choice : Bool) : Bounded w :=
  ⟨if choice then b.bound else a.bound, if choice then b.value else a.value⟩

def toPacked (b : Bounded w) : Option PackedBounded :=
  let repr := b.value.toBeBytes
  let boundBytes := (b.bound + 7) / 8
  if boundBytes ≤ repr.length then some ⟨b.bound, repr.drop (repr.length - boundBytes)⟩
  else none

def ofPacked (p : PackedBounded) : Except String (Bounded w) :=
  let repr := (0 : Uint w).toBeBytes
  let bytesLen := p.bytes.length
  let reprLen := repr.length
  if reprLen < bytesLen then
    .error ("The bytestring of length " ++ toString bytesLen ++
      " does not fit the expected integer size " ++ toString reprLen)
  else
    match new (Uint.fromBeBytes (repr.take (reprLen - bytesLen) ++ p.bytes)) p.bound with
    | some b => .ok b
    | none => .error "Invalid values for the signed integer"

theorem valid_iff {b : Bounded w} : b.Valid ↔ b.value.toNat < 2 ^ b.bound ∧ b.bound ≤ 8 * w :=
  and_congr_left' Uint.bits_le_iff

theorem new_of_valid {b : Bounded w} (hb : b.Valid) : new b.value b.bound = some b := by
  rw [new, if_neg (by rw [not_or, not_lt, not_lt]; exact ⟨hb.2, hb.1⟩)]

theorem new_valid {value : Uint w} {bound : ℕ} {c : Bounded w} (h : new value bound = some c) :
    c.Valid := by
  unfold new at h
  split at h
  · cases h
  · rename_i hc
    cases h
    simp only [gt_iff_lt, not_or, not_lt] at hc
    exact ⟨hc.2, hc.1⟩

theorem ofPacked_valid {p : PackedBounded} {c : Bounded w} (h : ofPacked p = .ok c) :
    c.Valid := by
  dsimp only [ofPacked] at h
  split at h
  · cases h
  · split at h
    · cases h
      exact new_valid ‹_›
    · cases h

theorem addMod_spec {a b : Bounded w} {m : Uint w} (ha : a.value.toNat < m.toNat)
    (hb : b.value.toNat < m.toNat) :
    (a.addMod b m).Valid ∧
      (a.addMod b m).value.toNat = (a.value.toNat + b.value.toNat) % m.toNat ∧
      (a.addMod b m).bound = m.bits := by
  have hsum : (a.addMod b m).value.toNat = (a.value.toNat + b.value.toNat) % m.toNat := by
    simp only [addMod, Uint.addMod, BitVec.toNat_ofNat]
    have hm := m.isLt
    split
    · rw [Nat.mod_eq_of_lt (by omega), Nat.mod_eq_of_lt (by omega)]
    · rw [Nat.mod_eq_of_lt (by omega), Nat.mod_eq_sub_mod (by omega), Nat.mod_eq_of_lt (by omega)]
  refine ⟨⟨?_, m.bits_le_width⟩, hsum, rfl⟩
  exact Nat.size_le_size ((hsum ▸ Nat.mod_lt _ (by omega)).le)

theorem intoWide_valid {a : Bounded w} (ha : a.Valid) :
    a.intoWide.Valid ∧ a.intoWide.value.toNat = a.value.toNat := by
  rw [valid_iff] at ha
  refine ⟨valid_iff.2 ⟨?_, ?_⟩, Uint.toNat_intoWide _⟩
  · simpa [intoWide] using ha.1
  · show a.bound ≤ 8 * (2 * w)
    omega

theorem mulWide_spec {a b : Bounded w} (ha : a.Valid) (hb : b.Valid) :
    (a.mulWide b).Valid ∧ (a.mulWide b).value.toNat = a.value.toNat * b.value.toNat ∧
      (a.mulWide b).bound = a.bound + b.bound := by
  rw [valid_iff] at ha hb
  refine ⟨valid_iff.2 ⟨?_, ?_⟩, Uint.toNat_mulWide _ _, rfl⟩
  · rw [mulWide, Uint.toNat_mulWide, pow_add]
    exact Nat.mul_lt_mul'' ha.1 hb.1
  · show a.bound + b.bound ≤ 8 * (2 * w)
    omega

theorem checkedAdd_spec {a b c : Bounded w} (ha : a.Valid) (hb : b.Valid)
    (h : a.checkedAdd b = some c) :
    c.Valid ∧ c.value.toNat = a.value.toNat + b.value.toNat := by
  dsimp only [checkedAdd] at h
  split at h
  · cases h
    rw [valid_iff] at ha hb
    have hlt : a.value.toNat + b.value.toNat < 2 ^ (max a.bound b.bound + 1) := by
      have h₁ := Nat.pow_le_pow_right two_pos (le_max_left a.bound b.bound)
      have h₂ := Nat.pow_le_pow_right two_pos (le_max_right a.bound b.bound)
      rw [pow_succ]
      omega
    have hexact : (a.value + b.value).toNat = a.value.toNat + b.value.toNat := by
      rw [BitVec.toNat_add, Nat.mod_eq_of_lt]
      exact hlt.trans_le (Nat.pow_le_pow_right (by norm_num) (by omega))
    exact ⟨valid_iff.2 ⟨hexact ▸ hlt, by dsimp only; omega⟩, hexact⟩
  · cases h

theorem checkedMul_spec {a b c : Bounded w} (ha : a.Valid) (hb : b.Valid)
    (h : a.checkedMul b = some c) :
    c.Valid ∧ c.value.toNat = a.value.toNat * b.value.toNat := by
  dsimp only [checkedMul] at h
  split at h
  · cases h
    rw [valid_iff] at ha hb
    have hlt : a.value.toNat * b.value.toNat < 2 ^ (a.bound + b.bound) := by
      rw [pow_add]
      exact Nat.mul_lt_mul'' ha.1 hb.1
    have hexact : (a.value * b.value).toNat = a.value.toNat * b.value.toNat := by
      rw [BitVec.toNat_mul, Nat.mod_eq_of_lt]
      exact hlt.trans_le (Nat.pow_le_pow_right (by norm_num) (by omega))
    exact ⟨valid_iff.2 ⟨hexact ▸ hlt, by dsimp only; omega⟩, hexact⟩
  · cases h

theorem conditionalSelect_valid {a b : Bounded w} (ha : a.Valid) (hb : b.Valid) (choice : Bool) :
    (a.conditionalSelect b choice).Valid := by
  cases choice
  · exact ha
  · exact hb

/-- The packed form round-trips: `Bounded` to `PackedBounded` and back is `Ok` of itself. -/
theorem ofPacked_toPacked (b : Bounded w) (hb : b.Valid) :
    ∃ p, b.toPacked = some p ∧ p.bound = b.bound ∧ p.bytes.length = (b.bound + 7) / 8 ∧
      p.bytes <:+ b.value.toBeBytes ∧ ofPacked p = .ok b := by
  have hm : (b.bound + 7) / 8 ≤ w := by
    have := hb.2
    omega
  have hx : b.value.toNat < 256 ^ ((b.bound + 7) / 8) :=
    calc b.value.toNat < 2 ^ b.bound := (valid_iff.1 hb).1
      _ ≤ 2 ^ (8 * ((b.bound + 7) / 8)) := Nat.pow_le_pow_right two_pos (by omega)
      _ = 256 ^ ((b.bound + 7) / 8) := by rw [pow_mul]; norm_num
  have hlen : (b.value.toBeBytes.drop (w - (b.bound + 7) / 8)).length = (b.bound + 7) / 8 := by
    rw [List.length_drop, Uint.length_toBeBytes, Nat.sub_sub_self hm]
  refine ⟨_, if_pos (by rwa [Uint.length_toBeBytes]), rfl, ?_, List.drop_suffix _ _, ?_⟩
  · rwa [Uint.length_toBeBytes]
  · simp only [ofPacked, Uint.length_toBeBytes, hlen, if_neg (not_lt.2 hm),
      Uint.fromBeBytes_pad hm hx, new_of_valid hb]

theorem ofPacked_toPacked_small :
    (⟨11, 1234⟩ : Bounded 4).Valid ∧
      ∃ p, (⟨11, 1234⟩ : Bounded 4).toPacked = some p ∧ p.bound = 11 ∧
        p.bytes.length = (11 + 7) / 8 ∧ p.bytes <:+ (1234 : Uint 4).toBeBytes ∧
        ofPacked p = .ok (⟨11, 1234⟩ : Bounded 4) :=
  have hv : (⟨11, 1234⟩ : Bounded 4).Valid := valid_iff.2 ⟨by decide, by decide⟩
  ⟨hv, ofPacked_toPacked _ hv⟩

/-- Every `Bounded` the code builds keeps `bits ≤ bound ≤ BITS`, and no arithmetic wraps. -/
theorem bounded_valid_and_exact (w : ℕ) :
    (∀ (v : Uint w) (bound : ℕ) (c : Bounded w), new v bound = some c → c.Valid) ∧
    (∀ (p : PackedBounded) (c : Bounded w), ofPacked p = .ok c → c.Valid) ∧
    (∀ (a b : Bounded w) (m : Uint w), a.value.toNat < m.toNat → b.value.toNat < m.toNat →
      (a.addMod b m).Valid ∧
        (a.addMod b m).value.toNat = (a.value.toNat + b.value.toNat) % m.toNat ∧
        (a.addMod b m).bound = m.bits) ∧
    (∀ a : Bounded w, a.Valid → a.intoWide.Valid ∧ a.intoWide.value.toNat = a.value.toNat) ∧
    (∀ a b : Bounded w, a.Valid → b.Valid →
      (a.mulWide b).Valid ∧ (a.mulWide b).value.toNat = a.value.toNat * b.value.toNat ∧
        (a.mulWide b).bound = a.bound + b.bound) ∧
    (∀ a b c : Bounded w, a.Valid → b.Valid → a.checkedAdd b = some c →
      c.Valid ∧ c.value.toNat = a.value.toNat + b.value.toNat) ∧
    (∀ a b c : Bounded w, a.Valid → b.Valid → a.checkedMul b = some c →
      c.Valid ∧ c.value.toNat = a.value.toNat * b.value.toNat) ∧
    (∀ (a b : Bounded w) (choice : Bool), a.Valid → b.Valid →
      (a.conditionalSelect b choice).Valid) :=
  ⟨fun _ _ _ => new_valid, fun _ _ => ofPacked_valid, fun _ _ _ => addMod_spec,
    fun _ => intoWide_valid, fun _ _ => mulWide_spec, fun _ _ _ => checkedAdd_spec,
    fun _ _ _ => checkedMul_spec, fun _ _ choice ha hb => conditionalSelect_valid ha hb choice⟩

end Bounded

end Synedrion
