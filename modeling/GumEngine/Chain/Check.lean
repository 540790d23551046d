import GumEngine.Domain

/-!
# Receipts and confirmation checks

`inclusion_from` of `pipeline/tx.rs` and `check` of `chain/confirm.rs`. The blocks a check
looks at are the node's answers; which numbers it asks for, and in which order, is the
strategy of the chain.
-/

namespace GumEngine

/-- The number and the hash of a block. -/
structure BlockRef where
  number : Nat
  hash : B256
deriving DecidableEq, Repr

/-- A block fetched without its transaction bodies. -/
structure Block where
  number : Nat
  hash : B256
  transactions : List B256
deriving DecidableEq, Repr

/-- How an inclusion is re-verified before `transaction.confirmed` fires. -/
inductive ConfirmCheck
  | immediate | blockHash
  | txMembership (window : Nat)
  | finalizedTag
deriving DecidableEq

structure ActualCost where
  feePaid : U256
  l1Fee : Option U256

/-- What confirmation reads off a chain: its delay and the functions of its adapter. -/
structure ChainCtx where
  confirmationDelayMs : Nat
  adapterCheck : ConfirmCheck
  actualCost : Nat → Receipt → ActualCost

/-- A zero delay means that the inclusion is the confirmation. -/
def ChainCtx.confirmCheck (chain : ChainCtx) : ConfirmCheck :=
  if chain.confirmationDelayMs = 0 then .immediate else chain.adapterCheck

/-- `saturating_to::<u64>` -/
def saturateU64 (n : Nat) : Nat := min n (2 ^ 64 - 1)

def Receipt.gasUsedU64 (r : Receipt) : Nat := saturateU64 r.gasUsed

def Receipt.effectiveGasPriceU128 (r : Receipt) : Nat :=
  r.effectiveGasPrice.elim 0 fun p => min p (2 ^ 128 - 1)

/-- The inclusion of a transaction with this gas limit; `none` when the receipt lacks
block data. -/
def inclusionAt (chain : ChainCtx) (gasLimit : Nat) (r : Receipt) : Option Inclusion :=
  match r.blockNumber,r.blockHash with
  | some number,some hash =>
    let cost := chain.actualCost gasLimit r
    some {
      txHash := r.transactionHash
      blockNumber := saturateU64 number
      blockHash := hash
      outcome := Outcome.fromReceiptStatus r.succeeded
      gasUsed := r.gasUsedU64
      effectiveGasPrice := r.effectiveGasPriceU128
      feePaid := cost.feePaid
      l1Fee := cost.l1Fee
      receipt := r }
  | _,_ => none

/-- `inclusion_from` -/
def inclusionFrom (chain : ChainCtx) (attempt : Attempt) (r : Receipt) : Option Inclusion :=
  inclusionAt chain attempt.gasLimit r

def Inclusion.block (inc : Inclusion) : BlockRef := ⟨inc.blockNumber,inc.blockHash⟩

/-! ## The check -/

/-- What one look at the chain says. `found` is where the transaction was seen; the code
does not return it. -/
inductive Verdict
  | confirmed (found : BlockRef)
  | notYet
  | missing
deriving DecidableEq

/-- The node's answers to the block queries of one check. -/
structure View where
  block : Nat → Option Block
  finalized : Option Block

/-- The block at the recorded height must have the recorded hash and hold the transaction. -/
def checkBlock (inc : Inclusion) : Option Block → Verdict
  | some b =>
    if b.hash = inc.blockHash ∧ inc.txHash ∈ b.transactions then
      .confirmed ⟨inc.blockNumber,b.hash⟩
    else .missing
  | none => .notYet

/-- `n`, `n - 1`, `n + 1`, `n - 2`, and so on. -/
def windowAround (n window : Nat) : List Nat :=
  n :: (List.range window).flatMap fun d => [n - (d + 1),n + (d + 1)]

/-- The first block that holds the transaction; only a missing block at `n` itself ends the
search early. -/
def scan (view : View) (txHash : B256) (n : Nat) : List Nat → Verdict
  | [] => .missing
  | number :: rest =>
    match view.block number with
    | some b =>
      if txHash ∈ b.transactions then .confirmed ⟨number,b.hash⟩ else scan view txHash n rest
    | none => if number = n then .notYet else scan view txHash n rest

def check (strategy : ConfirmCheck) (inc : Inclusion) (view : View) : Verdict :=
  match strategy with
  | .immediate => .confirmed inc.block
  | .blockHash => checkBlock inc (view.block inc.blockNumber)
  | .txMembership window =>
    scan view inc.txHash inc.blockNumber (windowAround inc.blockNumber window)
  | .finalizedTag =>
    match view.finalized with
    | none => .notYet
    | some f =>
      if f.number < inc.blockNumber then .notYet
      else if f.number = inc.blockNumber then checkBlock inc (some f)
      else checkBlock inc (view.block inc.blockNumber)

theorem checkBlock_found {inc : Inclusion} {b : Option Block} {found : BlockRef}
    (h : checkBlock inc b = .confirmed found) : found = inc.block := by
  unfold checkBlock at h
  split at h
  · split at h
    · next hb =>
      obtain rfl := Verdict.confirmed.inj h
      rw [hb.1]
      rfl
    · cases h
  · cases h

/-- A hit of the search is a block of the list that holds the transaction. -/
theorem scan_found {view : View} {txHash : B256} {n : Nat} {l : List Nat} {found : BlockRef}
    (h : scan view txHash n l = .confirmed found) :
    found.number ∈ l ∧ ∃ b, view.block found.number = some b ∧ b.hash = found.hash ∧
      txHash ∈ b.transactions := by
  induction l with
  | nil => cases h
  | cons number rest ih =>
    unfold scan at h
    split at h
    · next b hb =>
      split at h
      · next hin =>
        obtain rfl := Verdict.confirmed.inj h
        exact ⟨List.mem_cons_self,b,hb,rfl,hin⟩
      · obtain ⟨hm,hx⟩ := ih h
        exact ⟨List.mem_cons_of_mem _ hm,hx⟩
    · split at h
      · cases h
      · obtain ⟨hm,hx⟩ := ih h
        exact ⟨List.mem_cons_of_mem _ hm,hx⟩

/-- The node shows the transaction of `inc` nowhere in the window but in its block. -/
def View.Straight (view : View) (strategy : ConfirmCheck) (inc : Inclusion) : Prop :=
  match strategy with
  | .txMembership window => ∀ number ∈ windowAround inc.blockNumber window,
      ∀ b ∈ view.block number, inc.txHash ∈ b.transactions →
        (⟨number,b.hash⟩ : BlockRef) = inc.block
  | _ => True

instance (view : View) (inc : Inclusion) :
    ∀ strategy, Decidable (view.Straight strategy inc)
  | .txMembership window => inferInstanceAs (Decidable
      (∀ number ∈ windowAround inc.blockNumber window, ∀ b ∈ view.block number,
        inc.txHash ∈ b.transactions → (⟨number,b.hash⟩ : BlockRef) = inc.block))
  | .immediate | .blockHash | .finalizedTag => .isTrue trivial

/-- Every strategy but membership finds the transaction in the recorded block or not at
all; membership does so where the node shows it nowhere else. -/
theorem check_found {strategy : ConfirmCheck} {inc : Inclusion} {view : View} {found : BlockRef}
    (hv : view.Straight strategy inc) (h : check strategy inc view = .confirmed found) :
    found = inc.block := by
  cases strategy with
  | immediate => exact (Verdict.confirmed.inj h).symm
  | blockHash => exact checkBlock_found h
  | txMembership window =>
    obtain ⟨hm,b,hb,hhash,hin⟩ := scan_found h
    rw [← hv found.number hm b hb hin,hhash]
  | finalizedTag =>
    simp only [check] at h
    split at h
    · cases h
    · split at h
      · cases h
      · split at h
        · exact checkBlock_found h
        · exact checkBlock_found h

/-- A chain whose fee is the gas used at the effective price, as on Ethereum. -/
def Sample.ethereum : ChainCtx where
  confirmationDelayMs := 2000
  adapterCheck := .blockHash
  actualCost := fun _ r => ⟨r.gasUsedU64 * r.effectiveGasPriceU128,none⟩

end GumEngine
