import Mathlib.Algebra.Order.Ring.Nat
import Mathlib.Data.BitVec

/-!
# Packed orders (`hw/sys_def.svh`)

A heap node is the 86-bit `ORDER` struct, MSB first: type, price, amount, symbol, timestamp. The
dispatcher hands an engine the 32-bit `DISPATCH_ORDER`; `symbol_engine` widens it to a node with a
sampled timestamp. Fields are bit slices of the packed word, as in the source.
-/

namespace HftSim

/-- Engines, lanes and MMU clients are numbered by `Fin 8`. -/
instance eight_neZero : NeZero 8 := ⟨by decide⟩

/-- Banks are numbered by `Fin 4`. -/
instance four_neZero : NeZero 4 := ⟨by decide⟩

/-- An 86-bit `ORDER`. -/
abbrev Node := BitVec 86

/-- A 32-bit `DISPATCH_ORDER`: type `[31]`, price `[30:15]`, quantity `[14:0]`. -/
abbrev DispatchOrder := BitVec 32

/-- `order_type`: ask (0) or bid (1). -/
def orderType (n : Node) : Bool := n.getLsbD 85

def orderPrice (n : Node) : BitVec 16 := n.extractLsb' 69 16

def orderAmount (n : Node) : BitVec 16 := n.extractLsb' 53 16

def orderTs (n : Node) : BitVec 32 := n.extractLsb' 0 32

def withAmount (n : Node) (newAmt : BitVec 16) : Node :=
  n.extractLsb' 69 17 ++ newAmt ++ n.extractLsb' 0 53

/-- The node `symbol_engine` builds in `T_IDLE` from a dispatched order. -/
def packOrder (d : DispatchOrder) (symbol : BitVec 21) (nowTs : BitVec 32) : Node :=
  d.extractLsb' 31 1 ++ d.extractLsb' 15 16 ++ (0#1 ++ d.extractLsb' 0 15) ++ symbol ++ nowTs

@[simp] theorem orderPrice_withAmount (n : Node) (a : BitVec 16) :
    orderPrice (withAmount n a) = orderPrice n := by
  apply BitVec.eq_of_getLsbD_eq
  intro i hi
  simp only [orderPrice, withAmount, BitVec.getLsbD_extractLsb', BitVec.getLsbD_append, hi,
    show ¬ 69 + i < 53 by omega, show ¬ 69 + i - 53 < 16 by omega,
    show 69 + i - 53 - 16 = i by omega, show i < 17 by omega, if_false, decide_true, Bool.true_and]

@[simp] theorem orderTs_withAmount (n : Node) (a : BitVec 16) :
    orderTs (withAmount n a) = orderTs n := by
  apply BitVec.eq_of_getLsbD_eq
  intro i hi
  simp only [orderTs, withAmount, BitVec.getLsbD_extractLsb', BitVec.getLsbD_append, hi,
    Nat.zero_add, show i < 53 by omega, if_true, decide_true, Bool.true_and]

@[simp] theorem orderAmount_withAmount (n : Node) (a : BitVec 16) :
    orderAmount (withAmount n a) = a := by
  apply BitVec.eq_of_getLsbD_eq
  intro i hi
  simp only [orderAmount, withAmount, BitVec.getLsbD_extractLsb', BitVec.getLsbD_append, hi,
    show ¬ 53 + i < 53 by omega, show 53 + i - 53 = i by omega, if_false, if_true, decide_true,
    Bool.true_and]

/-- A mask of the `k` low bits. -/
theorem getLsbD_mask (w k i : Nat) :
    (BitVec.ofNat w (2 ^ k - 1)).getLsbD i = (decide (i < w) && decide (i < k)) := by
  rw [BitVec.getLsbD_ofNat, Nat.testBit_two_pow_sub_one]

section PackOrder

variable (d : DispatchOrder) (symbol : BitVec 21) (nowTs : BitVec 32)

@[simp] theorem orderType_packOrder : orderType (packOrder d symbol nowTs) = d.getLsbD 31 := by
  simp only [orderType, packOrder, BitVec.getLsbD_append, BitVec.getLsbD_extractLsb']
  rfl

@[simp] theorem orderPrice_packOrder : orderPrice (packOrder d symbol nowTs) = d.extractLsb' 15 16 := by
  apply BitVec.eq_of_getLsbD_eq
  intro i hi
  simp only [orderPrice, packOrder, BitVec.getLsbD_extractLsb', BitVec.getLsbD_append, hi,
    show ¬ 69 + i < 32 by omega, show ¬ 69 + i - 32 < 21 by omega,
    show ¬ 69 + i - 32 - 21 < 1 + 15 by omega, show 69 + i - 32 - 21 - (1 + 15) = i by omega,
    if_false, if_true, decide_true, Bool.true_and]

@[simp] theorem orderAmount_packOrder :
    orderAmount (packOrder d symbol nowTs) = 0#1 ++ d.extractLsb' 0 15 := by
  apply BitVec.eq_of_getLsbD_eq
  intro i hi
  simp only [orderAmount, packOrder, BitVec.getLsbD_extractLsb', BitVec.getLsbD_append, hi,
    show ¬ 53 + i < 32 by omega, show ¬ 53 + i - 32 < 21 by omega,
    show 53 + i - 32 - 21 = i by omega, if_false, if_true, decide_true, Bool.true_and]

@[simp] theorem orderTs_packOrder : orderTs (packOrder d symbol nowTs) = nowTs := by
  apply BitVec.eq_of_getLsbD_eq
  intro i hi
  simp only [orderTs, packOrder, BitVec.getLsbD_extractLsb', BitVec.getLsbD_append, hi,
    Nat.zero_add, if_true, decide_true, Bool.true_and]

end PackOrder

end HftSim
