import Mathlib.Tactic.NormNum
import Mathlib.Tactic.NormNum.Prime

/-! `SchemeParams` and `PaillierParams` (`cggmp21/params.rs`), modelled from the spec. -/

namespace Synedrion

structure SchemeParams where
  curveOrder : ℕ
  orderBits : ℕ
  securityParameter : ℕ
  lBound : ℕ
  lpBound : ℕ
  epsBound : ℕ
  primeBits : ℕ

namespace SchemeParams

variable (P : SchemeParams)

def modulusBits : ℕ := 2 * P.primeBits

def alphaBound : ℕ := max (2 * P.lBound) P.lpBound + 1

theorem lpBound_lt_alphaBound : P.lpBound < P.alphaBound := by
  unfold alphaBound
  omega

def deltaBound (m : ℕ) : ℕ := max (2 * P.orderBits) (P.alphaBound + m) + 2

structure Valid : Prop where
  order_pos : 0 < P.curveOrder
  order_le_lBound : P.curveOrder ≤ 2 ^ P.lBound
  order_le_orderBits : P.curveOrder ≤ 2 ^ P.orderBits
  decrypt_room : P.curveOrder ^ 2 + P.modulusBits * (2 ^ P.alphaBound + 2 ^ P.lpBound) ≤
    2 ^ (2 * P.primeBits - 3)

def test : SchemeParams :=
  ⟨115792089237316195423570985008687907852837564279074904382605163141518161494337, 256, 10, 256,
    256, 512, 512⟩

theorem test_valid : test.Valid where
  order_pos := by norm_num [test]
  order_le_lBound := by norm_num [test]
  order_le_orderBits := by norm_num [test]
  decrypt_room := by norm_num [test, modulusBits, alphaBound]

def small : SchemeParams := ⟨7, 3, 2, 3, 3, 6, 8⟩

theorem small_valid : small.Valid where
  order_pos := by decide
  order_le_lBound := by decide
  order_le_orderBits := by decide
  decrypt_room := by decide

theorem small_prime : Fact small.curveOrder.Prime := ⟨by norm_num [small]⟩

end SchemeParams

end Synedrion
