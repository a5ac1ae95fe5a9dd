import Mathlib.Tactic
import Mathlib.Data.List.Lex
import Mathlib.Order.BoundedOrder.Basic

/-!
# The order of byte strings

Byte strings in the order of `bytes.Compare`, with the empty string as the least one.
-/

namespace ByteOrder

scoped instance instLinearOrderUInt8 : LinearOrder UInt8 where
  le_refl _ := UInt8.le_refl _
  le_trans _ _ _ := UInt8.le_trans
  lt_iff_le_not_ge a b := by
    rw [UInt8.not_le]
    exact ⟨fun h => ⟨UInt8.le_of_lt h, h⟩, fun h => h.2⟩
  le_antisymm _ _ := UInt8.le_antisymm
  le_total := UInt8.le_total
  toDecidableLE := inferInstance
  compare_eq_compareOfLessAndEq _ _ := rfl

scoped instance instOrderBotBytes : OrderBot (List UInt8) where
  bot := []
  bot_le l := by
    cases l with
    | nil => exact le_refl _
    | cons b l => exact le_of_lt List.Lex.nil

end ByteOrder
