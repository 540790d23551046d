import GumEngine.Store.Jobs

/-!
# Signed transactions and the state changes they drive

`store/attempts.rs`. Each operation is one database transaction: it returns the
committed store, or an error, in which case nothing was written.
-/

namespace GumEngine
open Relational

/-- How a new attempt relates to its nonce. -/
inductive BindKind
  | first | replacement | cancel
deriving DecidableEq, Repr

inductive VoidMode
  | nonceUnused | nonceTakenByForeignTx
deriving DecidableEq, Repr

inductive VoidDisposition
  | requeue
  | fail (failure : JobFailure) (message : String)
deriving DecidableEq, Repr

/-- What a settlement did; `noop` means the change had already been applied. -/
inductive Settled
  | applied | noop
deriving DecidableEq, Repr

def AttemptRow.owner (r : AttemptRow) : Option SlotOwner :=
  match r.jobId,r.topupId with
  | some id,_ => some (.job id)
  | none,some id => some (.topup id)
  | none,none => none

/-- An attempt as it is loaded; the code refuses a row without owner as corrupt. -/
def attemptRow (r : AttemptRow) : Except StoreError Attempt :=
  match r.owner with
  | none => .error (.corrupt "attempt has neither job_id nor topup_id")
  | some owner => .ok {
      id := r.id
      chainId := r.chainId
      signer := r.signer
      nonce := r.nonce
      purpose := r.purpose
      owner := owner
      txHash := r.txHash
      rawTx := r.rawTx.getD []
      gasLimit := r.gasLimit
      maxFeePerGas := r.maxFeePerGas
      maxPriorityFeePerGas := r.maxPriorityFeePerGas
      value := r.value
      status := r.status
      blockNumber := r.blockNumber
      blockHash := r.blockHash }

/-- The row a bind inserts. -/
def AttemptRow.ofAttempt (a : Attempt) : AttemptRow where
  id := a.id
  chainId := a.chainId
  signer := a.signer
  nonce := a.nonce
  purpose := a.purpose
  jobId := a.owner.jobId
  topupId := a.owner.topupId
  txHash := a.txHash
  rawTx := some a.rawTx
  gasLimit := a.gasLimit
  maxFeePerGas := a.maxFeePerGas
  maxPriorityFeePerGas := a.maxPriorityFeePerGas
  value := a.value
  status := .broadcast
  blockNumber := none
  blockHash := none
  gasUsed := none
  feePaid := none

/-- The owner of a nonce slot, as `SELECT owner_id` returns it. -/
def Store.slotOwnerId (s : Store) (k : Slot) : Option Uuid :=
  (s.nonceSlots.rows.find? fun r => r.slot = k).map (·.ownerId)

/-- The compare-and-set on the nonce slot. -/
def claimSlot (s : Store) (a : Attempt) : BindKind → Option (Keyed SlotRow.slot)
  | .first => s.nonceSlots.insert ⟨a.slot,a.owner.ownerKind,a.owner.id⟩
  | .replacement | .cancel =>
    if s.slotOwnerId a.slot = some a.owner.id then some s.nonceSlots else none

/-- The row the foreign key of a new attempt points at. -/
def Store.ownerExists (s : Store) : SlotOwner → Bool
  | .job id => s.jobs.rows.any fun j => j.id = id
  | .topup id => s.topups.rows.any fun t => t.id = id

def JobRow.toSent (a : Attempt) (j : JobRow) : JobRow :=
  { j with
    status := .sent
    signer := some a.signer
    nonce := some a.nonce
    txHash := some a.txHash }

/-- The owner's move out of its expected state; `none` when no row was in it. -/
def moveOwner (s : Store) (a : Attempt) (kind : BindKind) : Option Store :=
  match a.owner,kind with
  | .job id,.first =>
    (s.jobs.updateReturning (JobRow.whereIn id [.queued]) (JobRow.toSent a)
      (fun _ => rfl)).map fun r => { s with jobs := r.2 }
  | .job id,.replacement =>
    (s.jobs.updateReturning (JobRow.whereIn id [.sent,.cancelling])
      (fun j => { j with txHash := some a.txHash }) (fun _ => rfl)).map
      fun r => { s with jobs := r.2 }
  | .job id,.cancel =>
    (s.jobs.updateReturning (JobRow.whereIn id [.sent,.cancelling])
      (fun j => { j with status := .cancelling }) (fun _ => rfl)).map
      fun r => { s with jobs := r.2 }
  | .topup id,.first =>
    (s.topups.updateReturning (TopupRow.whereIn id [.requested])
      (fun t => { t with status := .sent }) (fun _ => rfl)).map
      fun r => { s with topups := r.2 }
  | .topup id,_ =>
    (s.topups.updateReturning (TopupRow.whereIn id [.sent]) (fun t => t) (fun _ => rfl)).map
      fun r => { s with topups := r.2 }

/-- `GREATEST(COALESCE(nonce_hwm, -1), $3)` -/
def PairRow.raise (nonce : Nat) (p : PairRow) : PairRow :=
  { p with nonceHwm := some (p.nonceHwm.elim nonce (max · nonce)) }

def raiseHwm (t : Keyed PairRow.key) (k : Slot) : Keyed PairRow.key :=
  t.update (fun p => p.key = ⟨k.chainId,k.signer⟩) (PairRow.raise k.nonce) (fun _ => rfl)

/-- Persists a signed transaction and binds its nonce. -/
def bindAttempt (s : Store) (epoch : Int) (attempt : Attempt) (kind : BindKind) :
    Except StoreError Store :=
  if s.leaseEpoch ≠ epoch then .error (.fenced epoch) else
  match claimSlot s attempt kind with
  | none => .error (.nonceSlotTaken attempt.chainId attempt.signer attempt.nonce)
  | some slots =>
    match s.txAttempts.insert (.ofAttempt attempt) with
    | none => .error .uniqueViolation
    | some attempts =>
      if !s.ownerExists attempt.owner then .error .foreignKeyViolation else
      match moveOwner s attempt kind with
      | none => .error (.stateConflict attempt.owner.ownerKind attempt.owner.id "bindable")
      | some moved => .ok { moved with
          nonceSlots := slots
          txAttempts := attempts
          pairs := raiseHwm s.pairs attempt.slot }

/-- True when an attempt with this hash is stored. -/
def attemptExists (s : Store) (txHash : B256) : Bool :=
  s.txAttempts.rows.any fun r => r.txHash = txHash

def AttemptRow.toIncluded (inc : Inclusion) (r : AttemptRow) : AttemptRow :=
  { r with
    status := .included
    blockNumber := some inc.blockNumber
    blockHash := some inc.blockHash
    gasUsed := some inc.gasUsed
    feePaid := some inc.feePaid }

/-- The other broadcast attempts of the nonce: only one can be mined. -/
def AttemptRow.whereSibling (a : Attempt) (r : AttemptRow) : Bool :=
  r.slot = a.slot && r.id ≠ a.id && r.status = .broadcast

theorem tame_replaced (a : Attempt) :
    AttemptRow.Tame (AttemptRow.whereSibling a) fun r => { r with status := .replaced } :=
  ⟨fun _ => rfl,fun _ => rfl,fun _ => rfl,fun _ _ h => by simp [AttemptRow.mined] at h⟩

def JobRow.toIncluded (inc : Inclusion) (j : JobRow) : JobRow :=
  { j with
    status := .included
    outcome := some inc.outcome
    txHash := some inc.txHash
    blockNumber := some inc.blockNumber
    blockHash := some inc.blockHash
    gasUsed := some inc.gasUsed
    effectiveGasPrice := some inc.effectiveGasPrice
    feePaid := some inc.feePaid
    l1Fee := inc.l1Fee
    receipt := some inc.receipt
    webhookSeq := j.webhookSeq + 1 }

/-- What an inclusion does to the owner of the attempt. A mined cancel leaves the job
alone: it only fails once the cancel is confirmed. -/
def includeOwner (s : Store) (attempt : Attempt) (inc : Inclusion) (reincluded : Bool) :
    Except StoreError Store :=
  match attempt.owner,attempt.purpose with
  | .job id,.job =>
    match s.jobs.updateReturning (JobRow.whereIn id [.sent,.cancelling])
        (JobRow.toIncluded inc) (fun _ => rfl) with
    | none => .error (.stateConflict .job id "sent|cancelling")
    | some (job,jobs) => .ok { s with
        jobs := jobs
        webhookDeliveries := enqueue s.webhookDeliveries job .included job.webhookSeq reincluded }
  | .job _,_ => .ok s
  | .topup id,_ => .ok { s with
      topups := s.topups.update (TopupRow.whereIn id [.sent])
        (fun t => { t with status := .included }) (fun _ => rfl) }

theorem tame_confirmed (id : Uuid) :
    AttemptRow.Tame (AttemptRow.whereIn id [.included])
      fun r => { r with status := .confirmed, rawTx := none } :=
  ⟨fun _ => rfl,fun _ => rfl,fun _ => rfl,fun r h _ => .inl (by simp_all [AttemptRow.whereIn])⟩

theorem tame_forget (k : Slot) :
    AttemptRow.Tame (AttemptRow.whereSlot k .replaced) fun r => { r with rawTx := none } :=
  ⟨fun _ => rfl,fun _ => rfl,fun _ => rfl,fun _ _ h => h⟩

def JobRow.toConfirmed (j : JobRow) : JobRow :=
  { j with status := .confirmed, webhookSeq := j.webhookSeq + 1 }

def JobRow.bucket (j : JobRow) : RollupBucket :=
  if j.outcome = some .success then .succeeded else .reverted

/-- What a confirmation does to the owner of the attempt. -/
def confirmOwner (s : Store) (attempt : Attempt) : Store :=
  match attempt.owner,attempt.purpose with
  | .job id,.job =>
    match s.jobs.updateReturning (JobRow.whereIn id [.included])
        JobRow.toConfirmed (fun _ => rfl) with
    | none => s
    | some (job,jobs) => { s with jobs := jobs }.announce job .confirmed job.bucket
  | .job id,_ =>
    match s.jobs.updateReturning (JobRow.whereIn id [.cancelling])
        (JobRow.toFailed .stuckCancelled
          "the transaction could not be mined within the fee cap; its nonce was cancelled")
        (fun _ => rfl) with
    | none => s
    | some (job,jobs) => { s with jobs := jobs }.announce job .failed .failed
  | .topup id,_ => { s with
      topups := s.topups.update (TopupRow.whereIn id [.included])
        (fun t => { t with status := .confirmed }) (fun _ => rfl) }

def confirmInTx (s : Store) (attempt : Attempt) : Settled × Store :=
  if !s.txAttempts.rows.any (AttemptRow.whereIn attempt.id [.included]) then (.noop,s) else
  let attempts := s.txAttempts.update _ _ (tame_confirmed attempt.id).clash
  let attempts := attempts.update _ _ (tame_forget attempt.slot).clash
  (.applied,confirmOwner { s with txAttempts := attempts } attempt)

/-- Records that `attempt` was mined; with `confirmNow` it is confirmed at once. -/
def settleInclusion (s : Store) (attempt : Attempt) (inc : Inclusion)
    (confirmNow reincluded : Bool) : Except StoreError (Settled × Store) :=
  if !s.txAttempts.rows.any (AttemptRow.whereIn attempt.id [.broadcast]) then .ok (.noop,s) else
  match s.txAttempts.tryUpdate (AttemptRow.whereIn attempt.id [.broadcast])
      (AttemptRow.toIncluded inc) with
  | none => .error .uniqueViolation
  | some attempts =>
    let s := { s with
      txAttempts := attempts.update _ _ (tame_replaced attempt).clash
      gasLedger := addGas s.gasLedger ⟨attempt.chainId,attempt.signer,attempt.purpose⟩
        1 inc.gasUsed inc.feePaid }
    match includeOwner s attempt inc reincluded with
    | .error e => .error e
    | .ok s => .ok (.applied,if confirmNow then (confirmInTx s attempt).2 else s)

/-- Records that an included attempt passed its confirmation check. -/
def settleConfirmation (s : Store) (attempt : Attempt) : Settled × Store :=
  confirmInTx s attempt

theorem tame_moved (id : Uuid) (number : Nat) (hash : B256) :
    AttemptRow.Tame (AttemptRow.whereIn id [.included])
      fun r => { r with blockNumber := some number, blockHash := some hash } :=
  ⟨fun _ => rfl,fun _ => rfl,fun _ => rfl,fun _ _ h => h⟩

def JobRow.moveTo (number : Nat) (hash : B256) (receipt : Receipt) (j : JobRow) : JobRow :=
  { j with
    blockNumber := some number
    blockHash := some hash
    receipt := some receipt }

/-- The transaction is still mined, but in a different block than first recorded. -/
def updateInclusionBlock (s : Store) (attempt : Attempt) (number : Nat) (hash : B256)
    (receipt : Receipt) : Store :=
  let s := { s with
    txAttempts := s.txAttempts.update _ _ (tame_moved attempt.id number hash).clash }
  match attempt.owner,attempt.purpose with
  | .job id,.job => { s with
      jobs := s.jobs.update (JobRow.whereIn id [.included]) (JobRow.moveTo number hash receipt)
        (fun _ => rfl) }
  | _,_ => s

theorem tame_demoted (id : Uuid) :
    AttemptRow.Tame (AttemptRow.whereIn id [.included])
      fun r => { r with status := .broadcast, blockNumber := none, blockHash := none } :=
  ⟨fun _ => rfl,fun _ => rfl,fun _ => rfl,fun _ _ h => by simp [AttemptRow.mined] at h⟩

def JobRow.toDemoted (j : JobRow) : JobRow :=
  { j with
    status := .sent
    outcome := none
    blockNumber := none
    blockHash := none
    gasUsed := none
    effectiveGasPrice := none
    feePaid := none
    l1Fee := none
    receipt := none }

/-- What a demotion does to the owner of the attempt. -/
def demoteOwner (s : Store) (attempt : Attempt) : Store :=
  match attempt.owner,attempt.purpose with
  | .job id,.job => { s with
      jobs := s.jobs.update (JobRow.whereIn id [.included]) JobRow.toDemoted (fun _ => rfl) }
  | .job _,_ => s
  | .topup id,_ => { s with
      topups := s.topups.update (TopupRow.whereIn id [.included])
        (fun t => { t with status := .sent }) (fun _ => rfl) }

/-- An included attempt vanished from the canonical chain: its amounts are read off the
row and taken back from the ledger. -/
def demoteInclusion (s : Store) (attempt : Attempt) : Settled × Store :=
  match s.txAttempts.updateReturning _ _ (tame_demoted attempt.id).clash with
  | none => (.noop,s)
  | some (row,attempts) =>
    (.applied,demoteOwner { s with
      txAttempts := attempts
      gasLedger := addGas s.gasLedger ⟨attempt.chainId,attempt.signer,attempt.purpose⟩
        (-1) (-(row.gasUsed.getD 0)) (-(row.feePaid.getD 0)) } attempt)

theorem tame_dropped (k : Slot) :
    AttemptRow.Tame (AttemptRow.whereSlot k .broadcast)
      fun r => { r with status := .dropped, rawTx := none } :=
  ⟨fun _ => rfl,fun _ => rfl,fun _ => rfl,fun _ _ h => by simp [AttemptRow.mined] at h⟩

/-- `CASE WHEN $3 = 0 THEN NULL ELSE $3 - 1 END` -/
def PairRow.lower (nonce : Nat) (p : PairRow) : PairRow :=
  { p with nonceHwm := if nonce = 0 then none else some (nonce - 1) }

def lowerHwm (t : Keyed PairRow.key) (k : Slot) : Keyed PairRow.key :=
  t.update (fun p => p.key = ⟨k.chainId,k.signer⟩ && p.nonceHwm = some k.nonce)
    (PairRow.lower k.nonce) (fun _ => rfl)

def JobRow.toRequeued (now : Nat) (j : JobRow) : JobRow :=
  { j with
    status := .queued
    signer := none
    nonce := none
    txHash := none
    requeueCount := j.requeueCount + 1
    requeueRank := -now }

def TopupRow.toRejected (t : TopupRow) : TopupRow :=
  { t with
    status := .failed
    error := some "transaction was rejected before it could be sent" }

/-- What undoing a binding does to its owner. -/
def voidOwner (s : Store) (owner : SlotOwner) (disposition : VoidDisposition) (now : Nat) :
    Store :=
  match owner,disposition with
  | .job id,.requeue => { s with
      jobs := s.jobs.update (JobRow.whereIn id [.sent,.cancelling]) (JobRow.toRequeued now)
        (fun _ => rfl) }
  | .job id,.fail failure message =>
    match s.jobs.updateReturning (JobRow.whereIn id [.sent,.cancelling])
        (JobRow.toFailed failure message) (fun _ => rfl) with
    | none => s
    | some (job,jobs) => { s with jobs := jobs }.announce job .failed .failed
  | .topup id,_ => { s with
      topups := s.topups.update (TopupRow.whereIn id [.sent]) TopupRow.toRejected
        (fun _ => rfl) }

/-- The nonce is free again: its slot is released and the high-water mark steps back. -/
def releaseSlot (s : Store) (attempt : Attempt) : Store :=
  { s with
    nonceSlots := s.nonceSlots.delete fun r =>
      r.slot = attempt.slot && r.ownerId = attempt.owner.id
    pairs := lowerHwm s.pairs attempt.slot }

/-- Undoes a binding whose transaction never executed and never can. -/
def voidBinding (s : Store) (epoch : Int) (attempt : Attempt) (mode : VoidMode)
    (disposition : VoidDisposition) (now : Nat) : Except StoreError Store :=
  if s.leaseEpoch ≠ epoch then .error (.fenced epoch) else
  let s := { s with
    txAttempts := s.txAttempts.update _ _ (tame_dropped attempt.slot).clash }
  let s := if mode = .nonceUnused then releaseSlot s attempt else s
  .ok (voidOwner s attempt.owner disposition now)

/-- `status IN ('broadcast', 'included') ORDER BY nonce, created_at`; rows stand in the
order of their creation and the sort is stable. -/
def Store.liveRows (s : Store) (chainId : ChainId) (signer : Address) : List AttemptRow :=
  (s.txAttempts.rows.filter fun r => r.chainId = chainId ∧ r.signer = signer ∧ r.live).mergeSort
    fun a b => a.nonce ≤ b.nonce

def loadLiveAttemptsFor (s : Store) (chainId : ChainId) (signer : Address) :
    Except StoreError (List Attempt) :=
  (s.liveRows chainId signer).mapM attemptRow

end GumEngine
