import Synedrion.Tools.Bytes

/-! The framing of `XofHasher`: the byte stream that reaches the XOF. -/

namespace Synedrion.Tools.Hashing

open Synedrion.Tools.Bytes

structure XofHasher where
  absorbed : List UInt8
  deriving DecidableEq

namespace XofHasher

def new : XofHasher := ⟨[]⟩

def chainRawBytes (h : XofHasher) (bytes : List UInt8) : XofHasher := ⟨h.absorbed ++ bytes⟩

def chainBytes (h : XofHasher) (bytes : List UInt8) : XofHasher :=
  (h.chainRawBytes (toBeBytes 8 bytes.length)).chainRawBytes bytes

def newWithDst (dst : List UInt8) : XofHasher := new.chainBytes dst

def chainBytesList (h : XofHasher) (bs : List (List UInt8)) : XofHasher := bs.foldl chainBytes h

end XofHasher

def frame (bytes : List UInt8) : List UInt8 := toBeBytes 8 bytes.length ++ bytes

@[simp] theorem length_frame (bytes : List UInt8) : (frame bytes).length = 8 + bytes.length := by
  simp [frame]

theorem absorbed_chainBytes (h : XofHasher) (bytes : List UInt8) :
    (h.chainBytes bytes).absorbed = h.absorbed ++ frame bytes := by
  simp [XofHasher.chainBytes, XofHasher.chainRawBytes, frame]

theorem absorbed_chainBytesList (h : XofHasher) (bs : List (List UInt8)) :
    (h.chainBytesList bs).absorbed = h.absorbed ++ bs.flatMap frame := by
  induction bs generalizing h with
  | nil => simp [XofHasher.chainBytesList]
  | cons b bs ih =>
    simp only [XofHasher.chainBytesList, List.foldl_cons] at ih ⊢
    rw [ih, absorbed_chainBytes, List.flatMap_cons, List.append_assoc]

theorem absorbed_newWithDst_chainBytesList (dst : List UInt8) (bs : List (List UInt8)) :
    ((XofHasher.newWithDst dst).chainBytesList bs).absorbed = (dst :: bs).flatMap frame := by
  rw [absorbed_chainBytesList, XofHasher.newWithDst, absorbed_chainBytes]
  simp [XofHasher.new]

theorem frame_append_inj {a b s t : List UInt8} (ha : a.length < 2 ^ 64) (hb : b.length < 2 ^ 64)
    (h : frame a ++ s = frame b ++ t) : a = b ∧ s = t := by
  simp only [frame, List.append_assoc] at h
  obtain ⟨hlen, hrest⟩ := List.append_inj h (by simp)
  have hab : a.length = b.length := toBeBytes_inj (by simpa using ha) (by simpa using hb) hlen
  exact List.append_inj hrest hab

theorem flatMap_frame_inj {xs ys : List (List UInt8)} (hx : ∀ x ∈ xs, x.length < 2 ^ 64)
    (hy : ∀ y ∈ ys, y.length < 2 ^ 64) (h : xs.flatMap frame = ys.flatMap frame) : xs = ys := by
  induction xs generalizing ys with
  | nil =>
    cases ys with
    | nil => rfl
    | cons y ys =>
      have := congrArg List.length h
      simp at this
      omega
  | cons x xs ih =>
    cases ys with
    | nil => simpa using congrArg List.length h
    | cons y ys =>
      simp only [List.flatMap_cons] at h
      obtain ⟨rfl, hrest⟩ :=
        frame_append_inj (hx x (by simp)) (hy y (by simp)) h
      rw [ih (fun x hm => hx x (List.mem_cons_of_mem _ hm))
        (fun y hm => hy y (List.mem_cons_of_mem _ hm)) hrest]

/-- Two transcripts feed the XOF one stream exactly when their tags and items are equal. -/
theorem transcript_absorbed_eq_iff {dst dst' : List UInt8} {bs cs : List (List UInt8)}
    (hdst : dst.length < 2 ^ 64) (hdst' : dst'.length < 2 ^ 64)
    (hbs : ∀ b ∈ bs, b.length < 2 ^ 64) (hcs : ∀ c ∈ cs, c.length < 2 ^ 64) :
    ((XofHasher.newWithDst dst).chainBytesList bs).absorbed =
        ((XofHasher.newWithDst dst').chainBytesList cs).absorbed ↔ dst = dst' ∧ bs = cs := by
  rw [absorbed_newWithDst_chainBytesList, absorbed_newWithDst_chainBytesList]
  constructor
  · intro h
    have : dst :: bs = dst' :: cs :=
      flatMap_frame_inj (by simpa [List.forall_mem_cons] using ⟨hdst, hbs⟩)
        (by simpa [List.forall_mem_cons] using ⟨hdst', hcs⟩) h
    simpa using this
  · rintro ⟨rfl, rfl⟩
    rfl

inductive Absorbed (Pt : Type)
  | uint : ℕ → Absorbed Pt
  | point : Pt → Absorbed Pt
  | bytes : List UInt8 → Absorbed Pt
  | seq : List (Absorbed Pt) → Absorbed Pt

structure Xof (Pt : Type) where
  serialize : Absorbed Pt → List UInt8
  readBounded : List UInt8 → ℤ
  readBit : List UInt8 → ℕ → Bool

namespace Xof

variable {Pt : Type} (xof : Xof Pt)

def transcript (tag : List UInt8) (items : List (Absorbed Pt)) : XofHasher :=
  items.foldl (fun h a => h.chainRawBytes (xof.serialize a)) (XofHasher.newWithDst tag)

def challenge (tag : List UInt8) (items : List (Absorbed Pt)) : ℤ :=
  xof.readBounded (xof.transcript tag items).absorbed

def challengeBits (tag : List UInt8) (items : List (Absorbed Pt)) (n : ℕ) : List Bool :=
  (List.range n).map (xof.readBit (xof.transcript tag items).absorbed)

def constant (e : ℤ) (bit : Bool) : Xof Pt := ⟨fun _ => [], fun _ => e, fun _ _ => bit⟩

@[simp] theorem length_challengeBits (tag : List UInt8) (items : List (Absorbed Pt)) (n : ℕ) :
    (xof.challengeBits tag items n).length = n := by
  simp [challengeBits]

end Xof

theorem transcript_resplit_ne :
    ((XofHasher.newWithDst [80, 95, 100, 101, 99]).chainBytesList [[1], [2]]).absorbed ≠
      ((XofHasher.newWithDst [80, 95, 100, 101, 99]).chainBytesList [[1, 2]]).absorbed := by
  intro h
  have := (transcript_absorbed_eq_iff (by decide) (by decide) (by decide) (by decide)).1 h
  simp at this

end Synedrion.Tools.Hashing
