import GumEngine.Chain.Check
import GumEngine.Chain.Fees

/-!
# What a transaction may cost and what it did cost

`worst_case_cost` and `actual_cost` of the kinds. Most chains charge the gas used; Monad
charges the gas limit, and the OP Stack adds an L1 data fee and an operator fee that the
receipt reports in extra fields.
-/

namespace GumEngine

structure TxShape where
  gasLimit : Nat
  value : Nat
  encodedLen : Nat
deriving DecidableEq, Repr

/-- What costs depend on besides the transaction: the L1 fee per byte, once learned. -/
structure CostContext where
  l1FeePerByte : Option Nat
deriving DecidableEq, Repr

/-- The fee per byte that is reserved for L1 data. -/
def CostContext.perByte (ctx : CostContext) : Nat := ctx.l1FeePerByte.getD 50000000000

/-- `gas_limit * max_fee_per_gas + value` -/
def gasCost (tx : TxShape) (fees : FeeQuote) : Nat :=
  Saturating.add 256 (Saturating.mul 256 tx.gasLimit fees.maxFeePerGas) tx.value

/-- Learned per-byte L1 fee with twice the headroom. -/
def opstackWorstCaseCost (tx : TxShape) (fees : FeeQuote) (ctx : CostContext) : Nat :=
  let l2 := Saturating.mul 256 tx.gasLimit fees.maxFeePerGas
  let l1 := Saturating.mul 256 (Saturating.mul 256 ctx.perByte tx.encodedLen) 2
  Saturating.add 256 (Saturating.add 256 l2 l1) tx.value

/-- The most a transaction can take from its sender. -/
def AdapterKind.worstCaseCost (kind : AdapterKind) (tx : TxShape) (fees : FeeQuote)
    (ctx : CostContext) : Nat :=
  match kind with
  | geth | arc | monad | arbitrum => gasCost tx fees
  | opstack => opstackWorstCaseCost tx fees ctx

/-- The price of a receipt, zero when it has none. -/
def Receipt.price (r : Receipt) : Nat := r.effectiveGasPrice.getD 0

def gasTimesPrice (r : Receipt) : Nat := Saturating.mul 256 r.gasUsed r.price

section Receipts

-- `quantity` reads a hex quantity: the `0x` is stripped and `U256::from_str_radix` does the rest
variable (quantity : String → Option Nat)

/-- A hex-quantity extra field, if present and well-formed. -/
def Receipt.extraU256 (r : Receipt) (name : String) : Option Nat :=
  (r.other.lookup name).bind quantity

/-- Fee and operator fee on top of the gas. -/
def opstackActualCost (r : Receipt) : ActualCost :=
  let l1 := r.extraU256 quantity "l1Fee"
  let operator := (r.extraU256 quantity "operatorFee").getD 0
  ⟨Saturating.add 256 (Saturating.add 256 (gasTimesPrice r) (l1.getD 0)) operator,l1⟩

/-- The fee a mined transaction paid, read off its receipt. -/
def AdapterKind.actualCost (kind : AdapterKind) (gasLimit : Nat) (r : Receipt) : ActualCost :=
  match kind with
  | geth | arc | arbitrum => ⟨gasTimesPrice r,none⟩
  | monad => ⟨Saturating.mul 256 gasLimit r.price,none⟩
  | opstack => opstackActualCost quantity r

/-- The receipt stays within what the transaction allowed: its gas limit, its fee, and on the OP
Stack the L1 headroom at the length and the fee per byte it was reserved with. -/
structure Receipt.Within (r : Receipt) (kind : AdapterKind) (tx : TxShape) (fees : FeeQuote)
    (ctx : CostContext) : Prop where
  gas : r.gasUsed ≤ tx.gasLimit
  price : r.price ≤ fees.maxFeePerGas
  l1 : kind = .opstack → (r.extraU256 quantity "l1Fee").getD 0+
    (r.extraU256 quantity "operatorFee").getD 0 ≤ 2*ctx.perByte*tx.encodedLen

variable {quantity} {kind : AdapterKind} {tx : TxShape} {fees : FeeQuote} {ctx : CostContext}
  {r : Receipt} {transferred : Nat}

theorem gasTimesPrice_le (h : r.Within quantity kind tx fees ctx) :
    gasTimesPrice r ≤ Saturating.mul 256 tx.gasLimit fees.maxFeePerGas :=
  Saturating.mul_mono h.gas h.price

/-- Charging the gas limit is still within the reserve. -/
theorem gasLimitTimesPrice_le (h : r.Within quantity kind tx fees ctx) :
    Saturating.mul 256 tx.gasLimit r.price ≤ Saturating.mul 256 tx.gasLimit fees.maxFeePerGas :=
  Saturating.mul_mono le_rfl h.price

theorem opstackActualCost_le (h : r.Within quantity .opstack tx fees ctx)
    (hv : transferred ≤ tx.value) :
    Saturating.add 256 (opstackActualCost quantity r).feePaid transferred ≤
      opstackWorstCaseCost tx fees ctx := by
  have hgas := gasTimesPrice_le h
  have hl1 := h.l1 rfl
  unfold opstackActualCost opstackWorstCaseCost
  dsimp only
  rw [Saturating.add_add,Saturating.add_add]
  generalize Saturating.mul 256 tx.gasLimit fees.maxFeePerGas = l2 at hgas ⊢
  generalize gasTimesPrice r = gas at hgas ⊢
  have hbytes : 2*ctx.perByte*tx.encodedLen = ctx.perByte*tx.encodedLen*2 := by ring
  rw [hbytes] at hl1
  unfold Saturating.add Saturating.mul
  omega

/-- Whatever a transaction is charged, with the value it transfers, was reserved. -/
theorem actualCost_le_worstCaseCost (h : r.Within quantity kind tx fees ctx)
    (hv : transferred ≤ tx.value) :
    Saturating.add 256 (kind.actualCost quantity tx.gasLimit r).feePaid transferred ≤
      kind.worstCaseCost tx fees ctx := by
  cases kind with
  | geth => exact Saturating.add_mono (gasTimesPrice_le h) hv
  | arc => exact Saturating.add_mono (gasTimesPrice_le h) hv
  | arbitrum => exact Saturating.add_mono (gasTimesPrice_le h) hv
  | monad => exact Saturating.add_mono (gasLimitTimesPrice_le h) hv
  | opstack => exact opstackActualCost_le h hv

end Receipts

end GumEngine
