import GumEngine.Domain
import GumEngine.Relational.Table

/-!
# The database schema

The tables of `migrations/0001_init.sql` that binds, settlements, webhooks and
counters live in, with their primary keys and unique indexes.
-/

namespace GumEngine
open Relational

/-- A row of `jobs`; `request` groups its immutable columns. -/
structure JobRow where
  id : JobId
  request : JobRequest
  status : JobStatus
  outcome : Option Outcome
  requeueRank : Int
  requeueCount : Nat
  signer : Option Address
  nonce : Option Nat
  txHash : Option B256
  blockNumber : Option Nat
  blockHash : Option B256
  gasUsed : Option Nat
  effectiveGasPrice : Option Nat
  feePaid : Option U256
  l1Fee : Option U256
  errorCode : Option JobFailure
  errorMessage : Option String
  revertData : Option Bytes
  receipt : Option Receipt
  webhookSeq : Nat
deriving DecidableEq, Repr

/-- A freshly inserted job. -/
def JobRow.new (id : JobId) (request : JobRequest) : JobRow where
  id := id
  request := request
  status := .queued
  outcome := none
  requeueRank := 0
  requeueCount := 0
  signer := none
  nonce := none
  txHash := none
  blockNumber := none
  blockHash := none
  gasUsed := none
  effectiveGasPrice := none
  feePaid := none
  l1Fee := none
  errorCode := none
  errorMessage := none
  revertData := none
  receipt := none
  webhookSeq := 0

/-- `WHERE id = $1 AND status IN (..)` -/
def JobRow.whereIn (id : JobId) (st : List JobStatus) (j : JobRow) : Bool :=
  j.id = id && j.status ∈ st

structure SlotRow where
  slot : Slot
  ownerKind : OwnerKind
  ownerId : Uuid
deriving DecidableEq, Repr

structure TopupRow where
  id : Uuid
  chainId : ChainId
  treasury : Address
  signer : Address
  amount : U256
  status : TopupStatus
  error : Option String
deriving DecidableEq, Repr

def TopupRow.whereIn (id : Uuid) (st : List TopupStatus) (t : TopupRow) : Bool :=
  t.id = id && t.status ∈ st

/-- A row of `tx_attempts`. -/
structure AttemptRow where
  id : Uuid
  chainId : ChainId
  signer : Address
  nonce : Nat
  purpose : AttemptPurpose
  jobId : Option JobId
  topupId : Option Uuid
  txHash : B256
  rawTx : Option Bytes
  gasLimit : Nat
  maxFeePerGas : Nat
  maxPriorityFeePerGas : Nat
  value : U256
  status : AttemptStatus
  blockNumber : Option Nat
  blockHash : Option B256
  gasUsed : Option Nat
  feePaid : Option U256
deriving DecidableEq, Repr

def AttemptRow.slot (r : AttemptRow) : Slot := ⟨r.chainId,r.signer,r.nonce⟩

def AttemptRow.whereIn (id : Uuid) (st : List AttemptStatus) (r : AttemptRow) : Bool :=
  r.id = id && r.status ∈ st

/-- `WHERE chain_id = $1 AND signer = $2 AND nonce = $3 AND status = ..` -/
def AttemptRow.whereSlot (k : Slot) (st : AttemptStatus) (r : AttemptRow) : Bool :=
  r.slot = k && r.status = st

/-- The rows of the partial index `tx_attempts_mined_idx`. -/
def AttemptRow.mined (r : AttemptRow) : Prop := r.status = .included ∨ r.status = .confirmed

/-- `status IN ('broadcast', 'included')` -/
def AttemptRow.live (r : AttemptRow) : Prop := r.status = .broadcast ∨ r.status = .included

instance : DecidablePred AttemptRow.mined := fun r =>
  inferInstanceAs (Decidable (r.status = .included ∨ r.status = .confirmed))

instance : DecidablePred AttemptRow.live := fun r =>
  inferInstanceAs (Decidable (r.status = .broadcast ∨ r.status = .included))

/-- Primary key, `tx_hash UNIQUE`, and at most one mined attempt per nonce. -/
def AttemptRow.clash (a b : AttemptRow) : Prop :=
  a.id = b.id ∨ a.txHash = b.txHash ∨ a.mined ∧ b.mined ∧ a.slot = b.slot

instance : DecidableRel AttemptRow.clash := fun a b =>
  inferInstanceAs (Decidable (a.id = b.id ∨ a.txHash = b.txHash ∨ a.mined ∧ b.mined ∧ a.slot = b.slot))

theorem AttemptRow.clash_symm {a b : AttemptRow} (h : a.clash b) : b.clash a := by
  obtain h | h | ⟨ha,hb,h⟩ := h
  · exact .inl h.symm
  · exact .inr (.inl h.symm)
  · exact .inr (.inr ⟨hb,ha,h.symm⟩)

/-- An update that keeps the unique columns and adds no row to the mined index. -/
structure AttemptRow.Tame (p : AttemptRow → Bool) (f : AttemptRow → AttemptRow) : Prop where
  id : ∀ r, (f r).id = r.id
  txHash : ∀ r, (f r).txHash = r.txHash
  slot : ∀ r, (f r).slot = r.slot
  mined : ∀ r, p r = true → (f r).mined → r.mined

theorem AttemptRow.Tame.clash {p : AttemptRow → Bool} {f : AttemptRow → AttemptRow}
    (h : Tame p f) (a b : AttemptRow) (hc : clash (rewrite p f a) (rewrite p f b)) :
    clash a b := by
  have hm : ∀ r, (rewrite p f r).mined → r.mined := by
    intro r hr
    unfold rewrite at hr
    split at hr
    · next hp => exact h.mined r hp hr
    · exact hr
  unfold AttemptRow.clash at hc ⊢
  rw [rewrite_same AttemptRow.id (fun r _ => h.id r),
    rewrite_same AttemptRow.id (fun r _ => h.id r),
    rewrite_same AttemptRow.txHash (fun r _ => h.txHash r),
    rewrite_same AttemptRow.txHash (fun r _ => h.txHash r),
    rewrite_same AttemptRow.slot (fun r _ => h.slot r),
    rewrite_same AttemptRow.slot (fun r _ => h.slot r)] at hc
  obtain hc | hc | ⟨ha,hb,hs⟩ := hc
  · exact .inl hc
  · exact .inr (.inl hc)
  · exact .inr (.inr ⟨hm a ha,hm b hb,hs⟩)

structure PairRow where
  key : PairKey
  nonceHwm : Option Nat
deriving DecidableEq, Repr

/-- The body of a webhook, built from the job as it stands after the change. -/
structure Payload where
  event : WebhookEvent
  sequence : Nat
  jobId : JobId
  chainId : ChainId
  status : JobStatus
  outcome : Option Outcome
  txHash : Option B256
  blockNumber : Option Nat
  blockHash : Option B256
  signer : Option Address
  nonce : Option Nat
  gasUsed : Option Nat
  effectiveGasPrice : Option Nat
  feePaid : Option U256
  reincluded : Bool
  receipt : Option Receipt
  error : Option (JobFailure × Option String × Option Bytes)
deriving DecidableEq, Repr

inductive DeliveryStatus
  | pending | delivered | dead
deriving DecidableEq, Repr

structure DeliveryRow where
  id : Uuid
  jobId : JobId
  event : WebhookEvent
  version : Nat
  sequence : Nat
  url : String
  payload : Payload
  status : DeliveryStatus
deriving DecidableEq, Repr

structure GasKey where
  chainId : ChainId
  signer : Address
  purpose : AttemptPurpose
deriving DecidableEq, Repr

/-- A row of `gas_ledger`; its amounts are clamped at zero, so they are naturals. -/
structure GasRow where
  key : GasKey
  txCount : Int
  gasUsed : Nat
  feePaid : Nat
deriving DecidableEq, Repr

inductive RollupBucket
  | succeeded | reverted | failed
deriving DecidableEq, Repr

/-- `signer = none` is the empty text of a job that never reached a signer. -/
structure RollupKey where
  chainId : ChainId
  signer : Option Address
  bucket : RollupBucket
deriving DecidableEq, Repr

structure RollupRow where
  key : RollupKey
  count : Nat
deriving DecidableEq, Repr

/-- The committed state of the database. -/
structure Store where
  leaseEpoch : Int
  jobs : Keyed JobRow.id
  nonceSlots : Keyed SlotRow.slot
  topups : Keyed TopupRow.id
  txAttempts : Table AttemptRow.clash
  pairs : Keyed PairRow.key
  webhookDeliveries : List DeliveryRow
  gasLedger : Keyed GasRow.key
  statsRollup : Keyed RollupRow.key

/-- The store as the first migration leaves it. -/
def Store.empty : Store where
  leaseEpoch := 0
  jobs := ⟨[],.nil⟩
  nonceSlots := ⟨[],.nil⟩
  topups := ⟨[],.nil⟩
  txAttempts := ⟨[],.nil⟩
  pairs := ⟨[],.nil⟩
  webhookDeliveries := []
  gasLedger := ⟨[],.nil⟩
  statsRollup := ⟨[],.nil⟩

end GumEngine
