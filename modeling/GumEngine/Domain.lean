import Mathlib

/-!
# Domain types

The types of `domain.rs`, `error.rs` and `chain/adapter.rs` that the store and the
pipeline share. Uuids, addresses and hashes are numbers: the engine only ever
compares them. Wall-clock columns are left out.
-/

namespace GumEngine

abbrev Uuid := Nat
abbrev JobId := Uuid
abbrev ChainId := Nat
abbrev Address := Nat
abbrev B256 := Nat
abbrev U256 := Nat
abbrev Bytes := List UInt8

structure PairKey where
  chainId : ChainId
  signer : Address
deriving DecidableEq, Repr

/-- The key of `nonce_slots`: one nonce of one signer on one chain. -/
structure Slot where
  chainId : ChainId
  signer : Address
  nonce : Nat
deriving DecidableEq, Repr

inductive JobStatus
  | queued | sent | included | confirmed | cancelling | failed
deriving DecidableEq, Repr

def JobStatus.isTerminal : JobStatus → Bool
  | .confirmed | .failed => true
  | _ => false

inductive Outcome
  | success | reverted
deriving DecidableEq, Repr

def Outcome.fromReceiptStatus (ok : Bool) : Outcome := if ok then .success else .reverted

inductive AttemptPurpose
  | job | topup | cancel
deriving DecidableEq, Repr

inductive AttemptStatus
  | broadcast | included | confirmed | replaced | dropped
deriving DecidableEq, Repr

inductive TopupStatus
  | requested | sent | included | confirmed | failed
deriving DecidableEq, Repr

/-- What a nonce was bound to. -/
inductive SlotOwner
  | job (id : JobId)
  | topup (id : Uuid)
deriving DecidableEq, Repr

inductive OwnerKind
  | job | topup
deriving DecidableEq, Repr

def SlotOwner.ownerKind : SlotOwner → OwnerKind
  | .job _ => .job
  | .topup _ => .topup

def SlotOwner.id : SlotOwner → Uuid
  | .job id | .topup id => id

/-- The columns `job_id` and `topup_id` of an attempt. -/
def SlotOwner.jobId : SlotOwner → Option JobId
  | .job id => some id
  | .topup _ => none

def SlotOwner.topupId : SlotOwner → Option Uuid
  | .job _ => none
  | .topup id => some id

/-- The caller's request, immutable for the life of the job. -/
structure JobRequest where
  chainId : ChainId
  toAddr : Address
  data : Bytes
  value : U256
  gasLimit : Option Nat
  deadline : Option Nat
  webhookUrl : String
deriving DecidableEq, Repr

/-- A signed transaction, persisted before its first broadcast. -/
structure Attempt where
  id : Uuid
  chainId : ChainId
  signer : Address
  nonce : Nat
  purpose : AttemptPurpose
  owner : SlotOwner
  txHash : B256
  rawTx : Bytes
  gasLimit : Nat
  maxFeePerGas : Nat
  maxPriorityFeePerGas : Nat
  value : U256
  status : AttemptStatus
  blockNumber : Option Nat
  blockHash : Option B256
deriving DecidableEq, Repr

def Attempt.slot (a : Attempt) : Slot := ⟨a.chainId,a.signer,a.nonce⟩

/-- A receipt as the node returns it; `other` keeps the chain's extra fields. -/
structure Receipt where
  transactionHash : B256
  blockNumber : Option Nat
  blockHash : Option B256
  status : Option Nat
  gasUsed : U256
  effectiveGasPrice : Option U256
  other : List (String × String)
deriving DecidableEq, Repr

def Receipt.succeeded (r : Receipt) : Bool := r.status == some 1

/-- The facts of an inclusion, extracted from a receipt by the chain adapter. -/
structure Inclusion where
  txHash : B256
  blockNumber : Nat
  blockHash : B256
  outcome : Outcome
  gasUsed : Nat
  effectiveGasPrice : Nat
  feePaid : U256
  l1Fee : Option U256
  receipt : Receipt
deriving DecidableEq, Repr

inductive WebhookEvent
  | included | confirmed | failed
deriving DecidableEq, Repr

/-- Terminal failure reasons of a job. -/
inductive JobFailure
  | simulationReverted | invalidTx | expired | stuckCancelled | cancelled | internal
deriving DecidableEq, Repr

/-- The failures of the database driver that `is_transient` tells apart. -/
inductive SqlxError
  | io | poolTimedOut | poolClosed | workerCrashed | tls
  | database (code : String)
  | other
deriving DecidableEq, Repr

inductive StoreError
  | db (e : SqlxError)
  | fenced (mine : Int)
  | nonceSlotTaken (chainId : ChainId) (signer : Address) (nonce : Nat)
  | stateConflict (entity : OwnerKind) (id : Uuid) (expected : String)
  | corrupt (message : String)
deriving DecidableEq, Repr

/-- Transient failures are retried; everything else is a logic or data problem. -/
def StoreError.isTransient : StoreError → Bool
  | .db .io | .db .poolTimedOut | .db .poolClosed | .db .workerCrashed | .db .tls => true
  | .db (.database code) => code ∈ ["40001","40P01","57P01","57P02","57P03"]
  | _ => false

/-- `unique_violation` -/
def StoreError.uniqueViolation : StoreError := .db (.database "23505")

/-- `foreign_key_violation` -/
def StoreError.foreignKeyViolation : StoreError := .db (.database "23503")

/-- Errors of a JSON-RPC call, after the retries of the transport. -/
inductive RpcError
  | response (code : Int) (message : String) (data : Option String)
  | rateLimited (message : String)
  | transport (message : String)
  | circuitOpen (chainId : ChainId)
  | decode (message : String)
deriving DecidableEq, Repr

/-- True when the node definitely did not act on the request. -/
def RpcError.isDefinitelyNotDelivered : RpcError → Bool
  | .circuitOpen _ | .rateLimited _ => true
  | _ => false

inductive PauseReason
  | booting | chainOutage | reorg | nonceDrift | insufficientFunds | stuckUnresolved
  | signerUnavailable | manual
deriving DecidableEq, Repr

/-- What the engine is doing to get a paused pair back. -/
inductive RecoveryStep
  | awaitingChainHead | reconcilingNonce | rebroadcasting | awaitingTreasuryTopup
  | awaitingTreasuryRefill | awaitingOperatorResume | needsOperator
deriving DecidableEq, Repr

end GumEngine
