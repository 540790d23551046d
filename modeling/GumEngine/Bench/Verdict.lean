import Mathlib

/-!
# The benchmark's verdict

`verdict.rs` of the benchmark: what the harness saw from the outside (HTTP answers, final
statuses, webhook deliveries, the chain) is judged by `evaluate`. The free-text examples of a
violation are left out. A map of vectors that is only pushed to is the list of its pushes.
-/

namespace GumEngine.Bench

abbrev Hash := BitVec 256
abbrev Addr := BitVec 160

/-- A fixed-size value as `LowerHex` writes it, with its prefix: all digits, most significant
first. -/
def hexText {n : Nat} (x : BitVec n) : String :=
  String.ofList ('0' :: 'x' ::
    (List.range (n/4)).reverse.map fun i => Nat.digitChar (x.toNat/16^i%16))

/-- What the standard library leaves open here: lower-casing outside ASCII, and the order in
which a hash map is walked. -/
structure Platform where
  lowercase : String → String
  lowercase_ascii : ∀ s : String, (∀ c ∈ s.toList, c.val < 128) → lowercase s = s.toLower
  walk : List ((Nat × String × Nat) × List String) → List ((Nat × String × Nat) × List String)
  walk_perm : ∀ entries, (walk entries).Perm entries

def eqIgnoreAsciiCase (s t : String) : Bool := s.toLower == t.toLower

section Maps

variable {κ α : Type} [DecidableEq κ]

/-- `get(k)`, or the empty vector. -/
def valuesAt (pushes : List (κ × α)) (k : κ) : List α :=
  (pushes.filter fun p => p.1 = k).map (·.2)

def entries (pushes : List (κ × α)) : List (κ × List α) :=
  (pushes.map (·.1)).dedup.map fun k => (k,valuesAt pushes k)

/-- `collect()` into a hash map: a later value replaces an earlier one. -/
def collect (pairs : List (κ × α)) : κ → Option α :=
  pairs.foldl (fun m p => Function.update m p.1 (some p.2)) fun _ => none

end Maps

inductive JobKind
  | hitGas | hitNoGas | burnGas | failGas | failNoGas | transfer
deriving DecidableEq, Repr

def JobKind.label : JobKind → String
  | hitGas => "hit_gas"
  | hitNoGas => "hit_nogas"
  | burnGas => "burn_gas"
  | failGas => "fail_gas"
  | failNoGas => "fail_nogas"
  | transfer => "transfer"

inductive SinkMode
  | ok | slow | fail | flaky | dead
deriving DecidableEq, Repr

/-- Whether the verdict may demand that deliveries arrive. -/
def SinkMode.coverageRequired : SinkMode → Bool
  | ok | slow | flaky => true
  | fail | dead => false

inductive ReplayPlan
  | none | same | conflict
deriving DecidableEq, Repr

structure SubmitResult where
  status : Option Nat
  jobId : Option String
  replayed : Bool
  errorCode : Option String
  transportError : Option String

structure ReplayResult where
  plan : ReplayPlan
  result : SubmitResult

structure TxStatus where
  status : String
  outcome : Option String
  signer : Option String
  nonce : Option Nat
  txHash : Option String
  blockNumber : Option Nat
  error : Option String

def TxStatus.isTerminal (s : TxStatus) : Bool := s.status == "confirmed" || s.status == "failed"

structure JobSpec where
  idx : Nat
  kind : JobKind
  chainId : Nat
  /-- The unique id that makes this job attributable on-chain. -/
  benchId : Hash
  toAddr : Addr
  webhookMode : SinkMode

structure JobRecord where
  spec : JobSpec
  attempts : Nat
  submit : SubmitResult
  /-- An attempt ended without an HTTP response. -/
  indeterminate : Bool
  replay : Option ReplayResult
  finalStatus : Option TxStatus

/-- The engine acknowledged this job. -/
def JobRecord.accepted (j : JobRecord) : Bool :=
  j.submit.jobId.isSome && (j.submit.status == some 202 || j.submit.status == some 200)

def JobRecord.jobId (j : JobRecord) : Option String :=
  if j.accepted then j.submit.jobId else none

structure Delivery where
  signatureValid : Bool
  eventId : String
  event : String
  sequence : Nat
  jobId : String
  outcome : Option String
  headerEventId : Option String
  headerJobId : Option String
  malformed : Option String

structure ChainTx where
  block : Nat
  hash : Hash
  sender : Addr
  toAddr : Option Addr
  nonce : Nat
  input : List UInt8
  success : Bool

/-- What a transaction is, as far as the bench can tell from the chain alone. -/
inductive TxKey
  | id (id : Hash)
  | recipient (toAddr : Addr)
  | other
deriving DecidableEq

/-- `hit(bytes32)`, `burn(bytes32,uint256)` and `fail()` of `BenchTarget`. -/
def selectors : List (List UInt8) :=
  [[0xa4,0x59,0x39,0xbf],[0x7a,0x40,0x84,0x54],[0xa9,0xcc,0x47,0x18]]

/-- `B256::from_slice` -/
def hashOf (bytes : List UInt8) : Hash :=
  BitVec.ofNat 256 (bytes.foldl (fun n b => n*256+b.toNat) 0)

def ChainTx.key (tx : ChainTx) (target : Addr) : TxKey :=
  if tx.toAddr = some target ∧ 4 ≤ tx.input.length then
    if tx.input.take 4 ∈ selectors ∧ 36 ≤ tx.input.length then
      .id (hashOf ((tx.input.drop 4).take 32))
    else .other
  else
    match tx.toAddr with
    | some toAddr => if tx.input = [] then .recipient toAddr else .other
    | none => .other

structure ChainFacts where
  chainId : Nat
  target : Addr
  txs : List ChainTx
  /-- `Hit` log occurrences per id. -/
  hitLogs : Hash → Nat
  nonceLatest : Addr → Option Nat
  noncePending : Addr → Option Nat

structure Input where
  jobs : List JobRecord
  deliveries : List Delivery
  facts : List ChainFacts
  signerAddrs : List Addr
  treasury : Addr

/-- The checks of the benchmark's README that `evaluate` makes. -/
inductive Check
  | a | b | c | d | g | h | i
deriving DecidableEq, Repr

inductive Code
  | notTerminal
  | executedMoreThanOnce | hitLoggedMoreThanOnce | hitLogMismatch | rejectedButExecuted
  | confirmedButNotOnChain | confirmedWithoutOutcome | outcomeMismatch | failedButExecuted
  | txHashMismatch | nonceMismatch | signerMismatch | blockMismatch | nonceClaimedTwice
  | pendingNonceGap
  | missingIncludedWebhook | missingConfirmedWebhook | missingFailedWebhook
  | contradictoryWebhook | webhookOutcomeMismatch | sequenceInconsistent | invalidSignature
  | malformedWebhook | webhookHeaderMismatch
  | unexpectedResult (kind : JobKind)
  | replayNotRecognised | conflictNotDetected
  | unexpectedHttp (status : Nat) | acceptWithoutJobId
deriving DecidableEq, Repr

namespace Code

def check : Code → Check
  | notTerminal => .a
  | executedMoreThanOnce | hitLoggedMoreThanOnce | hitLogMismatch | rejectedButExecuted
  | confirmedButNotOnChain | confirmedWithoutOutcome | outcomeMismatch | failedButExecuted => .b
  | txHashMismatch | nonceMismatch | signerMismatch | blockMismatch | nonceClaimedTwice
  | pendingNonceGap => .c
  | missingIncludedWebhook | missingConfirmedWebhook | missingFailedWebhook
  | contradictoryWebhook | webhookOutcomeMismatch | sequenceInconsistent | invalidSignature
  | malformedWebhook | webhookHeaderMismatch => .d
  | unexpectedResult _ => .g
  | replayNotRecognised | conflictNotDetected => .h
  | unexpectedHttp _ | acceptWithoutJobId => .i

def text : Code → String
  | notTerminal => "not_terminal"
  | executedMoreThanOnce => "executed_more_than_once"
  | hitLoggedMoreThanOnce => "hit_logged_more_than_once"
  | hitLogMismatch => "hit_log_mismatch"
  | rejectedButExecuted => "rejected_but_executed"
  | confirmedButNotOnChain => "confirmed_but_not_on_chain"
  | confirmedWithoutOutcome => "confirmed_without_outcome"
  | outcomeMismatch => "outcome_mismatch"
  | failedButExecuted => "failed_but_executed"
  | txHashMismatch => "tx_hash_mismatch"
  | nonceMismatch => "nonce_mismatch"
  | signerMismatch => "signer_mismatch"
  | blockMismatch => "block_mismatch"
  | nonceClaimedTwice => "nonce_claimed_twice"
  | pendingNonceGap => "pending_nonce_gap"
  | missingIncludedWebhook => "missing_included_webhook"
  | missingConfirmedWebhook => "missing_confirmed_webhook"
  | missingFailedWebhook => "missing_failed_webhook"
  | contradictoryWebhook => "contradictory_webhook"
  | webhookOutcomeMismatch => "webhook_outcome_mismatch"
  | sequenceInconsistent => "sequence_inconsistent"
  | invalidSignature => "invalid_signature"
  | malformedWebhook => "malformed_webhook"
  | webhookHeaderMismatch => "webhook_header_mismatch"
  | unexpectedResult kind => "unexpected_result_" ++ kind.label
  | replayNotRecognised => "replay_not_recognised"
  | conflictNotDetected => "conflict_not_detected"
  | unexpectedHttp status => "unexpected_http_" ++ toString status
  | acceptWithoutJobId => "accept_without_job_id"

def message : Code → String
  | notTerminal => "an accepted job never reached confirmed/failed"
  | executedMoreThanOnce => "a job's transaction was included on-chain more than once"
  | hitLoggedMoreThanOnce => "BenchTarget emitted Hit more than once for one id"
  | hitLogMismatch => "Hit logs disagree with the transaction scan"
  | rejectedButExecuted => "a job the API definitively rejected was executed on-chain"
  | confirmedButNotOnChain => "job is confirmed but no transaction for it exists on-chain"
  | confirmedWithoutOutcome => "confirmed job has a null outcome"
  | outcomeMismatch => "API outcome disagrees with the receipt status on-chain"
  | failedButExecuted =>
    "job is failed (\"never executed on-chain\") yet a transaction for it exists"
  | txHashMismatch => "API tx_hash is not the transaction that executed the job"
  | nonceMismatch => "API nonce differs from the on-chain transaction's nonce"
  | signerMismatch => "API signer differs from the on-chain sender"
  | blockMismatch => "API block_number differs from the chain"
  | nonceClaimedTwice => "two confirmed jobs report the same (chain, signer, nonce)"
  | pendingNonceGap => "at rest a signer still has pending (unmined) transactions"
  | missingIncludedWebhook => "confirmed job without a transaction.included delivery"
  | missingConfirmedWebhook => "confirmed job without a transaction.confirmed delivery"
  | missingFailedWebhook => "failed job without a transaction.failed delivery"
  | contradictoryWebhook => "webhook event contradicts the job's final status"
  | webhookOutcomeMismatch => "webhook outcome disagrees with the chain"
  | sequenceInconsistent => "webhook sequence numbers are inconsistent for a job"
  | invalidSignature => "webhook delivery with a missing/invalid X-Gum-Signature"
  | malformedWebhook => "webhook body does not match the contract"
  | webhookHeaderMismatch => "X-Gum-Event-Id / X-Gum-Job-Id do not match the body"
  | unexpectedResult _ => "job did not end the way its kind requires"
  | replayNotRecognised =>
    "same Idempotency-Key + same body must return 200 replayed:true with the original job_id"
  | conflictNotDetected =>
    "same Idempotency-Key + different body must return 409 idempotency_conflict"
  | unexpectedHttp _ => "a valid POST /v1/transactions got an unexpected status"
  | acceptWithoutJobId => "2xx response without a job_id"

end Code

/-- What is reported of one code; `jobIds` holds at most `maxIds` identifiers. -/
structure Violation where
  check : Check
  code : String
  message : String
  count : Nat
  jobIds : List String

def maxIds : Nat := 50

structure Violations where
  map : Code → Option Violation

namespace Violations

def empty : Violations := ⟨fun _ => none⟩

def add (v : Violations) (code : Code) (id : String) : Violations :=
  let old := (v.map code).getD ⟨code.check,code.text,code.message,0,[]⟩
  let ids := if old.jobIds.length < maxIds ∧ id ≠ "" ∧ id ∉ old.jobIds then old.jobIds ++ [id]
    else old.jobIds
  ⟨Function.update v.map code (some { old with count := old.count+1, jobIds := ids })⟩

/-- Adds a violation where `found` holds. -/
def flag (v : Violations) (found : Bool) (code : Code) (id : String) : Violations :=
  if found then v.add code id else v

end Violations

/-- The job's own id, or what the bench calls it. -/
def label (j : JobRecord) : String :=
  j.jobId.getD ("bench#" ++ toString j.spec.idx ++ "(" ++ hexText j.spec.benchId ++ ")")

def JobSpec.key (s : JobSpec) : TxKey :=
  match s.kind with
  | .transfer => .recipient s.toAddr
  | _ => .id s.benchId

/-- On-chain executions attributed to each job index, and the other transactions. -/
def attributeTxs (jobs : List JobRecord) (facts : List ChainFacts) :
    List (Nat × ChainTx) × List ChainTx :=
  let byKey := collect (jobs.map fun j => ((j.spec.chainId,j.spec.key),j.spec.idx))
  let txs := facts.flatMap fun f => f.txs.map fun tx => (byKey (f.chainId,tx.key f.target),tx)
  (txs.filterMap fun p => p.1.map (·,p.2),(txs.filter fun p => p.1.isNone).map (·.2))

def JobKind.logsHit : JobKind → Bool
  | hitGas | hitNoGas | burnGas => true
  | failGas | failNoGas | transfer => false

/-- b: never twice for anyone, accepted or not. -/
def checkOnce (facts : Option ChainFacts) (v : Violations) (j : JobRecord) (ex : List ChainTx) :
    Violations :=
  let v := v.flag (1 < ex.length) .executedMoreThanOnce (label j)
  match facts with
  | none => v
  | some f =>
    let logs := f.hitLogs j.spec.benchId
    let v := v.flag (1 < logs) .hitLoggedMoreThanOnce (label j)
    v.flag (j.spec.kind.logsHit && logs != min (ex.countP (·.success)) 1 && ex.length ≤ 1)
      .hitLogMismatch (label j)

/-- i: HTTP hygiene for valid requests. -/
def checkHttp (v : Violations) (j : JobRecord) : Violations :=
  let v := match j.submit.status with
    | none => v
    | some status =>
      v.flag (!(status == 202 || status == 503 ||
        status == 200 && j.submit.replayed && 1 < j.attempts)) (.unexpectedHttp status) (label j)
  v.flag ((j.submit.status == some 202 || j.submit.status == some 200) && j.submit.jobId.isNone)
    .acceptWithoutJobId (label j)

/-- h: idempotency replays. -/
def checkReplay (v : Violations) (j : JobRecord) : Violations :=
  match j.replay with
  | none => v
  | some r =>
    let res := r.result
    -- An answer that never came, or a 503, proves nothing.
    if res.transportError.isSome || res.status == some 503 then v
    else
      match r.plan with
      | .same => v.flag (!(res.status == some 200 && res.replayed && res.jobId == j.submit.jobId))
          .replayNotRecognised (label j)
      | .conflict => v.flag
          (!(res.status == some 409 && res.errorCode == some "idempotency_conflict"))
          .conflictNotDetected (label j)
      | .none => v

/-- b: the outcome that the API reports; with two executions there is nothing to compare. -/
def checkOutcome (v : Violations) (j : JobRecord) (ex : List ChainTx) (tx : ChainTx)
    (fs : TxStatus) : Violations :=
  match fs.outcome with
  | none => v.add .confirmedWithoutOutcome (label j)
  | some outcome =>
    v.flag (ex.length == 1 && (outcome == "success") != tx.success) .outcomeMismatch (label j)

/-- b and c: a confirmed job's transaction, and the API's view of it. -/
def checkConfirmed (p : Platform) (v : Violations) (j : JobRecord) (ex : List ChainTx)
    (fs : TxStatus) : Violations :=
  match ex with
  | [] => v.add .confirmedButNotOnChain (label j)
  | tx :: _ =>
    let v := checkOutcome v j ex tx fs
    let apiHash := p.lowercase (fs.txHash.getD "")
    match ex.find? fun t => hexText t.hash == apiHash with
    | none => v.add .txHashMismatch (label j)
    | some t =>
      let v := v.flag (fs.nonce != some t.nonce) .nonceMismatch (label j)
      let v := v.flag (!(fs.signer.map (eqIgnoreAsciiCase · (hexText t.sender))).getD false)
        .signerMismatch (label j)
      v.flag (fs.blockNumber != some t.block) .blockMismatch (label j)

/-- The (chain, signer, nonce) a job reports. -/
def nonceClaim (p : Platform) (j : JobRecord) (fs : TxStatus) : Option (Nat × String × Nat) :=
  match fs.signer,fs.nonce with
  | some signer,some nonce => some (j.spec.chainId,p.lowercase signer,nonce)
  | _,_ => none

/-- g: expectations of the mix. -/
def checkExpected (v : Violations) (j : JobRecord) (fs : TxStatus) : Violations :=
  let (status,outcome,error) := match j.spec.kind with
    | .failGas => ("confirmed",some "reverted",none)
    | .failNoGas => ("failed",none,some "simulation_reverted")
    | _ => ("confirmed",some "success",none)
  v.flag (fs.status != status || (fs.status == "confirmed" && fs.outcome != outcome) ||
    (error.isSome && fs.error != error)) (.unexpectedResult j.spec.kind) (label j)

/-- Redeliveries keep their number, and a number has one event. -/
def repeatsBadly (ds : List Delivery) : Bool :=
  (ds.foldl (fun (m : (String → Option Nat) × (Nat → Option String) × Bool) d =>
    let moved := (m.1 d.eventId).any (· != d.sequence)
    let shared := (m.2.1 d.sequence).any (· != d.eventId)
    (Function.update m.1 d.eventId (some d.sequence),
      Function.update m.2.1 d.sequence (some d.eventId),m.2.2 || moved || shared))
    (fun _ => none,fun _ => none,false)).2.2

def firstSequence (ds : List Delivery) (event : String) : Option Nat :=
  ((ds.filter fun d => d.event == event).map (·.sequence)).min?

def delivered (ds : List Delivery) (event : String) : Bool := ds.any fun d => d.event == event

def badSequence (ds : List Delivery) (required confirmed : Bool) : Bool :=
  let bad := repeatsBadly (ds.filter fun d => d.malformed.isNone)
  let bad := match firstSequence ds "transaction.included",firstSequence ds "transaction.confirmed" with
    | some i,some c => bad || c ≤ i
    | _,_ => bad
  if required && !ds.isEmpty && (ds.map (·.sequence)).min? != some 1 && !bad then
    if confirmed then delivered ds "transaction.included" && delivered ds "transaction.confirmed"
    else delivered ds "transaction.failed"
  else bad

/-- d: the webhooks of one job. -/
def checkWebhooks (v : Violations) (j : JobRecord) (ex : List ChainTx) (ds : List Delivery)
    (confirmed : Bool) : Violations :=
  let required := j.spec.webhookMode.coverageRequired
  let v := if confirmed then
      (v.flag (required && !delivered ds "transaction.included") .missingIncludedWebhook
        (label j)).flag (required && !delivered ds "transaction.confirmed")
        .missingConfirmedWebhook (label j)
    else v.flag (required && !delivered ds "transaction.failed") .missingFailedWebhook (label j)
  let v := v.flag (confirmed && delivered ds "transaction.failed") .contradictoryWebhook (label j)
  let v := v.flag (!confirmed &&
    (delivered ds "transaction.included" || delivered ds "transaction.confirmed"))
    .contradictoryWebhook (label j)
  let v := match ex with
    | [tx] =>
      let want := if tx.success then "success" else "reverted"
      v.flag (confirmed && ds.any fun d =>
        (d.event == "transaction.included" || d.event == "transaction.confirmed") &&
          d.outcome != some want) .webhookOutcomeMismatch (label j)
    | _ => v
  v.flag (badSequence ds required confirmed) .sequenceInconsistent (label j)

/-- One job: the violations so far and the nonces claimed so far. -/
def judge (p : Platform) (input : Input) (st : Violations × List ((Nat × String × Nat) × String))
    (j : JobRecord) : Violations × List ((Nat × String × Nat) × String) :=
  let ex := valuesAt (attributeTxs input.jobs input.facts).1 j.spec.idx
  let factsByChain := collect (input.facts.map fun f => (f.chainId,f))
  let v := checkHttp (checkOnce (factsByChain j.spec.chainId) st.1 j ex) j
  if j.accepted then
    let v := checkReplay v j
    match j.finalStatus.filter TxStatus.isTerminal with
    | none => (v.add .notTerminal (label j),st.2)
    | some fs =>
      let ds := input.deliveries.filter fun d => d.jobId == label j
      if fs.status == "confirmed" then
        let v := checkExpected (checkConfirmed p v j ex fs) j fs
        (checkWebhooks v j ex ds true,
          st.2 ++ ((nonceClaim p j fs).map (·,label j)).toList)
      else
        let v := checkExpected (v.flag (!ex.isEmpty) .failedButExecuted (label j)) j fs
        (checkWebhooks v j ex ds false,st.2)
  else (v.flag (!j.indeterminate && !ex.isEmpty) .rejectedButExecuted (label j),st.2)

/-- d: checks of one delivery. -/
def checkDelivery (v : Violations) (d : Delivery) : Violations :=
  let v := v.flag (!d.signatureValid) .invalidSignature d.jobId
  if d.malformed.isSome then v.add .malformedWebhook d.jobId
  else v.flag (d.headerEventId != some d.eventId || d.headerJobId != some d.jobId)
    .webhookHeaderMismatch d.jobId

/-- c: a nonce can only belong to one confirmed job. -/
def checkClaim (v : Violations) (claim : (Nat × String × Nat) × List String) : Violations :=
  if 1 < claim.2.length then claim.2.foldl (fun v id => v.add .nonceClaimedTwice id) v else v

/-- c: nothing may be stuck in the mempool at rest. -/
def checkPending (input : Input) (v : Violations) (f : ChainFacts) : Violations :=
  (input.signerAddrs ++ [input.treasury]).foldl
    (fun v a => v.flag ((f.nonceLatest a).getD 0 != (f.noncePending a).getD 0) .pendingNonceGap
      (hexText a)) v

/-- Checks that depend only on jobs, webhooks and the chain. -/
def evaluate (p : Platform) (input : Input) : Violations :=
  let (v,claims) := input.jobs.foldl (judge p input) (.empty,[])
  let v := input.deliveries.foldl checkDelivery v
  let v := (p.walk (entries claims)).foldl checkClaim v
  input.facts.foldl (checkPending input) v

end GumEngine.Bench
