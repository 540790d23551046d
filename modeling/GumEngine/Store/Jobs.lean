import GumEngine.Store.Schema

/-!
# Job rows, webhook outbox and counters

`store/jobs.rs`, `store/outbox.rs` and the counters of `store/misc.rs`. The
functions that run inside a caller's transaction act on the table they write.
-/

namespace GumEngine
open Relational

/-- `GREATEST(.., 0)` on both branches of the upsert, except `tx_count` on conflict. -/
def addGas (t : Keyed GasRow.key) (key : GasKey) (txCount gasUsed feePaid : Int) :
    Keyed GasRow.key :=
  t.upsert ⟨key,max txCount 0,gasUsed.toNat,feePaid.toNat⟩
    (fun r => { r with
      txCount := r.txCount + txCount
      gasUsed := (r.gasUsed + gasUsed).toNat
      feePaid := (r.feePaid + feePaid).toNat })
    (fun _ => rfl)

def bumpRollup (t : Keyed RollupRow.key) (key : RollupKey) : Keyed RollupRow.key :=
  t.upsert ⟨key,1⟩ (fun r => { r with count := r.count + 1 }) (fun _ => rfl)

def payload (job : JobRow) (event : WebhookEvent) (sequence : Nat) (reincluded : Bool) :
    Payload where
  event := event
  sequence := sequence
  jobId := job.id
  chainId := job.request.chainId
  status := job.status
  outcome := job.outcome
  txHash := job.txHash
  blockNumber := job.blockNumber
  blockHash := job.blockHash
  signer := job.signer
  nonce := job.nonce
  gasUsed := job.gasUsed
  effectiveGasPrice := job.effectiveGasPrice
  feePaid := job.feePaid
  reincluded := reincluded
  receipt := job.receipt
  error := job.errorCode.map fun code => (code,job.errorMessage,job.revertData)

/-- `SELECT COALESCE(MAX(version), 0) + 1 .. WHERE job_id = $1 AND event = $2` -/
def nextVersion (ds : List DeliveryRow) (job : JobId) (event : WebhookEvent) : Nat :=
  ((ds.filter fun d => d.jobId = job && d.event = event).map (·.version)).max?.getD 0 + 1

/-- Adds an event for `job` inside the caller's transaction. The event id is new,
and so is the version, so the unique key `(job_id, event, version)` is never hit. -/
def enqueue (ds : List DeliveryRow) (job : JobRow) (event : WebhookEvent) (sequence : Nat)
    (reincluded : Bool) : List DeliveryRow :=
  let version := nextVersion ds job.id event
  let reincluded := reincluded || (event = .included && version > 1)
  ds ++ [{
    id := ds.length
    jobId := job.id
    event := event
    version := version
    sequence := sequence
    url := job.request.webhookUrl
    payload := payload job event sequence reincluded
    status := .pending }]

/-- A terminal job is announced and counted. -/
def Store.announce (s : Store) (job : JobRow) (event : WebhookEvent) (bucket : RollupBucket) :
    Store :=
  { s with
    webhookDeliveries := enqueue s.webhookDeliveries job event job.webhookSeq false
    statsRollup := bumpRollup s.statsRollup ⟨job.request.chainId,job.signer,bucket⟩ }

/-- One row of the batched ingest, its idempotency key being new. -/
def insertJob (s : Store) (id : JobId) (request : JobRequest) : Except StoreError Store :=
  match s.jobs.insert (JobRow.new id request) with
  | none => .error .uniqueViolation
  | some jobs => .ok { s with jobs := jobs }

def createTopup (s : Store) (id : Uuid) (chainId : ChainId) (treasury signer : Address)
    (amount : U256) : Except StoreError Store :=
  match s.topups.insert ⟨id,chainId,treasury,signer,amount,.requested,none⟩ with
  | none => .error .uniqueViolation
  | some topups => .ok { s with topups := topups }

/-- Puts an unbound job back at the front of its queue; `now` is the clock in
microseconds. -/
def requeueFront (s : Store) (id : JobId) (now : Nat) : Except StoreError (Nat × Store) :=
  match s.jobs.updateReturning (JobRow.whereIn id [.queued])
      (fun j => { j with requeueRank := -now, requeueCount := j.requeueCount + 1 })
      (fun _ => rfl) with
  | none => .error (.stateConflict .job id "queued")
  | some (j,jobs) => .ok (j.requeueCount,{ s with jobs := jobs })

def JobRow.toFailed (failure : JobFailure) (message : String) (j : JobRow) : JobRow :=
  { j with
    status := .failed
    errorCode := some failure
    errorMessage := some message
    webhookSeq := j.webhookSeq + 1 }

/-- Moves a job to `failed` and enqueues its webhook, atomically. `allowed` lists the
statuses the job may be in; any other job is left untouched. -/
def failJob (s : Store) (id : JobId) (allowed : List JobStatus) (failure : JobFailure)
    (message : String) (revertData : Option Bytes) : Bool × Store :=
  match s.jobs.updateReturning (JobRow.whereIn id allowed)
      (fun j => { j.toFailed failure message with revertData := revertData })
      (fun _ => rfl) with
  | none => (false,s)
  | some (job,jobs) => (true,{ s with jobs := jobs }.announce job .failed .failed)

/-- Cancels a job that is still queued (admin). -/
def cancelQueued (s : Store) (id : JobId) : Bool × Store :=
  failJob s id [.queued] .cancelled "cancelled by operator before it was sent" none

end GumEngine
