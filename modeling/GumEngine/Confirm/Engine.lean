import GumEngine.Pipeline.Driver
import GumEngine.Chain.Check

/-!
# Settling and confirming on one chain

`pipeline/settle.rs`, `chain/confirm.rs` and `pipeline/recovery.rs`: the workers of a chain
hand what was mined to a FIFO of writes and to the verifier, the verifier checks it again
and confirms or undoes it, and recovery goes over what is stored. The tasks only meet in
the store, in the queue and in the flags of a pair; every await is a point where any other
task may move. Ledgers and clocks are left out: they only choose when a task moves.
-/

namespace GumEngine
open Relational Transition

structure Pause where
  reason : PauseReason
  recoveryStep : RecoveryStep
deriving DecidableEq

/-- The flags of a pair that other tasks read and write. -/
structure Pair where
  pause : Option Pause
  manualPause : Bool
  recoveryRequested : Bool
deriving DecidableEq

namespace Pair

/-- `Pair::new` -/
def new (manualPause : Bool) : Pair := ⟨some ⟨.booting,.reconcilingNonce⟩,manualPause,true⟩

/-- `Pair::pause`; the operator's own pause is not one of the reasons used here. -/
def pauseFor (reason : PauseReason) (step : RecoveryStep) (p : Pair) : Pair :=
  { p with pause := some ⟨reason,step⟩ }

/-- Clears a pause if it is still for the given reason. -/
def resumeIf (reason : PauseReason) (p : Pair) : Pair :=
  if p.pause.map Pause.reason = some reason then
    let manual := p.manualPause && reason ≠ .manual
    { p with
      -- an operator pause outlives whatever automatic pause was layered on top of it
      pause := if manual then some ⟨.manual,.awaitingOperatorResume⟩ else none
      manualPause := manual }
  else p

def requestRecovery (p : Pair) : Pair := { p with recoveryRequested := true }

end Pair

/-- An inclusion the verifier is to check again. -/
structure PendingConfirmation where
  attempt : Attempt
  inclusion : Inclusion
  misses : Nat
deriving DecidableEq

/-- Who waits for a flush. -/
inductive Waiter
  | verifier
  | recovery (signer : Address)
deriving DecidableEq

/-- The writes of the settle queue. `found` is the block in which the check saw the
transaction; the code does not pass it on. -/
inductive SettleOp
  | inclusion (attempt : Attempt) (inc : Inclusion) (confirmNow : Bool)
  | confirmation (attempt : Attempt) (found : BlockRef)
  | flush (waiter : Waiter)
deriving DecidableEq

/-- Where `on_missing` stands: it asks for the receipt, and then waits for the queue to be
flushed before it writes. -/
inductive OnMissing
  | asking (item : PendingConfirmation)
  | moved (item : PendingConfirmation) (flushed : Bool)
  | vanished (item : PendingConfirmation) (flushed : Bool)
deriving DecidableEq

def OnMissing.item : OnMissing → PendingConfirmation
  | asking item | moved item _ | vanished item _ => item

def OnMissing.flush : OnMissing → OnMissing
  | asking item => asking item
  | moved item _ => moved item true
  | vanished item _ => vanished item true

/-- Where the worker of a pair stands. `todo` are the nonces recovery goes on with; outside
recovery it is `none`. -/
inductive Worker
  | idle
  | picked
  | driving (attempts : List Attempt) (todo : Option (List (List Attempt)))
  | settling (attempt : Attempt) (inc : Inclusion) (todo : Option (List (List Attempt)))
  | flushing
  | loading
  | recovering (todo : List (List Attempt))
  | demoting (included : Attempt) (group : List Attempt) (todo : List (List Attempt))
deriving DecidableEq

/-- The transitions of the in-memory counters that concern a mined job. -/
inductive Account
  | mined | confirmed | demoted
deriving DecidableEq

/-- A block as it is stored on an attempt or a job. -/
abbrev StoredBlock := Option Nat × Option B256

/-- What a reader of the whole run wants to know: which writes changed the store, and which
transitions the counters made. -/
inductive Note
  | included (attempt : Attempt)
  | confirmed (attempt : Attempt) (found : BlockRef) (stored : List StoredBlock)
  | demoted (attempt : Attempt) (observed : StoredBlock) (stored : List StoredBlock)
  | accounted (account : Account) (attempt : Attempt)
  | restarted
deriving DecidableEq

/-- `written`: the head of the queue is committed, but no try of it was answered; the code
cannot tell. -/
structure Engine where
  store : Store
  queue : List SettleOp
  written : Bool
  pending : List PendingConfirmation
  missing : Option OnMissing
  workers : Address → Worker
  pairs : Address → Pair
  deadLetters : List SettleOp
  log : List Note

def AttemptRow.block (r : AttemptRow) : StoredBlock := (r.blockNumber,r.blockHash)
def JobRow.block (j : JobRow) : StoredBlock := (j.blockNumber,j.blockHash)
def Attempt.block (a : Attempt) : StoredBlock := (a.blockNumber,a.blockHash)
def BlockRef.stored (b : BlockRef) : StoredBlock := (some b.number,some b.hash)
def Inclusion.stored (inc : Inclusion) : StoredBlock := inc.block.stored
def PendingConfirmation.block (i : PendingConfirmation) : StoredBlock := i.inclusion.stored

/-- The block stored on the attempt. -/
def Store.attemptBlocks (s : Store) (a : Attempt) : List StoredBlock :=
  (s.txAttempts.rows.filter fun r => r.id = a.id).map AttemptRow.block

/-- The block stored on the job that the attempt executes. -/
def Store.jobBlocks (s : Store) (a : Attempt) : List StoredBlock :=
  (s.jobs.rows.filter fun j => a.purpose = .job ∧ a.owner = .job j.id).map JobRow.block

/-! ## The tasks -/

def SettleOp.run (s : Store) : SettleOp → Except StoreError (Settled × Store)
  | inclusion a inc confirmNow => settleInclusion s a inc confirmNow false
  | confirmation a _ => .ok (settleConfirmation s a)
  | flush _ => .ok (.noop,s)

/-- A write that was applied and left the store `s`. -/
@[simp] def SettleOp.notes (s : Store) : SettleOp → Settled → List Note
  | inclusion a _ _,.applied => [.included a]
  | confirmation a found,.applied => [.confirmed a found (s.attemptBlocks a ++ s.jobBlocks a)]
  | _,_ => []

/-- A demotion of `a` that is applied to `s`; `observed` is the block from which the caller
saw it vanish. -/
def Store.demotion (s : Store) (a : Attempt) (observed : StoredBlock) : List Note :=
  if (demoteInclusion s a).1 = .applied then [.demoted a observed (s.attemptBlocks a)] else []

/-- The transaction commits if it can. -/
def Call.reaches : Call → Bool
  | refused _ => false
  | _ => true

namespace Engine

def push (e : Engine) (op : SettleOp) : Engine := { e with queue := e.queue ++ [op] }

def submit (e : Engine) (item : PendingConfirmation) : Engine :=
  { e with pending := e.pending ++ [item] }

def setWorker (e : Engine) (p : Address) (w : Worker) : Engine :=
  { e with workers := Function.update e.workers p w }

def setPair (e : Engine) (p : Address) (f : Pair → Pair) : Engine :=
  { e with pairs := Function.update e.pairs p (f (e.pairs p)) }

/-- `accounting::mined`, `confirmed` and `demoted`, for the job an attempt executes. -/
def account (e : Engine) (c : Account) (a : Attempt) : Engine :=
  { e with log := .accounted c a :: e.log }

/-- A flush at the head of the queue wakes the one who waits for it. -/
def signal (e : Engine) : Waiter → Engine
  | .verifier => { e with missing := e.missing.map OnMissing.flush }
  | .recovery p => if e.workers p = .flushing then e.setWorker p .loading else e

/-- The settler takes the head of the queue. A transient failure is retried; any other is
parked, if `dead_letter` goes through. -/
def write (e : Engine) (call : Call) (parks : Bool) : Engine :=
  match e.queue with
  | [] => e
  | .flush w :: rest => { e with queue := rest, written := false }.signal w
  | op :: rest =>
    let r := op.run e.store
    let res := call.answer e.store (r.map (·.2))
    let e' := { e with
      store := res.2
      written := e.written || (call.reaches && r.isOk)
      log := (match r with
        | .ok (st,s') => if call.reaches then op.notes s' st else []
        | .error _ => []) ++ e.log }
    match res.1 with
    | .ok () => { e' with queue := rest, written := false }
    | .error err =>
      if err.isTransient then e'
      else { e' with
        queue := rest
        written := false
        deadLetters := if parks then op :: e.deadLetters else e.deadLetters }

/-- `demote_inclusion` -/
def demote (e : Engine) (call : Call) (a : Attempt) (observed : StoredBlock) :
    Except StoreError Unit × Engine :=
  let res := call.answer e.store (.ok (demoteInclusion e.store a).2)
  (res.1,{ e with
    store := res.2
    log := (if call.reaches then e.store.demotion a observed else []) ++ e.log })

section Verifier

variable (chain : ChainCtx)

/-- One item that is due is checked; a second miss asks for the receipt. -/
def check (e : Engine) (i : Nat) (view : View) : Engine :=
  match e.missing,e.pending[i]? with
  | none,some item =>
    let e' := { e with pending := e.pending.eraseIdx i }
    match GumEngine.check chain.confirmCheck item.inclusion view with
    | .confirmed found => (e'.push (.confirmation item.attempt found)).account .confirmed item.attempt
    | .notYet => e'.submit item
    | .missing =>
      let item := { item with misses := item.misses + 1 }
      if item.misses < 2 then e'.submit item else { e' with missing := some (.asking item) }
  | _,_ => e

/-- The receipt, or an error: the transaction moved, is where it was, or is gone. -/
def lookup (e : Engine) (answer : Option (Option Receipt)) : Engine :=
  match e.missing with
  | some (.asking item) =>
    let e' := { e with missing := none }
    match answer with
    | none => e'.submit item
    | some none => { e' with missing := some (.vanished item false) }.push (.flush .verifier)
    | some (some receipt) =>
      let stays := { item with misses := 0 }
      match inclusionFrom chain item.attempt receipt with
      | none => e'.submit stays
      | some moved =>
        if moved.block = item.inclusion.block then e'.submit stays
        else
          let inc := { item.inclusion with
            blockNumber := moved.blockNumber, blockHash := moved.blockHash, receipt := moved.receipt }
          { e' with missing := some (.moved { stays with inclusion := inc } false) }.push
            (.flush .verifier)
  | _ => e

/-- What `on_missing` writes once the queue is flushed. -/
def resolve (e : Engine) (call : Call) : Engine :=
  match e.missing with
  | some (.moved item true) =>
    let inc := item.inclusion
    let res := call.answer e.store
      (.ok (updateInclusionBlock e.store item.attempt inc.blockNumber inc.blockHash inc.receipt))
    { e with store := res.2, missing := none }.submit item
  | some (.vanished item true) =>
    let e' := { e with missing := none }
    match e'.demote call item.attempt item.block with
    | (.ok (),e') =>
      let e' := if (demoteInclusion e.store item.attempt).1 = .applied then
        e'.account .demoted item.attempt else e'
      e'.setPair item.attempt.signer fun p => (p.pauseFor .reorg .reconcilingNonce).requestRecovery
    | (.error _,e') => e'.submit item
  | _ => e

end Verifier

section Workers

/-- The worker after a nonce is done with. -/
def next : Option (List (List Attempt)) → Worker
  | none => .idle
  | some todo => .recovering todo

variable (chain : ChainCtx)

/-- The worker takes a job while its pair is not paused. -/
def pick (e : Engine) (p : Address) : Engine :=
  match e.workers p with
  | .idle => if (e.pairs p).pause = none then e.setWorker p .picked else e
  | _ => e

/-- A bind whose answer arrives; the attempt joins those of the nonce. -/
def bound (e : Engine) (p : Address) (epoch : Int) (a : Attempt) (kind : BindKind) : Engine :=
  match bindAttempt e.store epoch a kind,e.workers p with
  | .ok s,.picked =>
    if kind = .first then { e with store := s }.setWorker p (.driving [a] none) else e
  | .ok s,.driving attempts todo =>
    if kind = .first then e else { e with store := s }.setWorker p (.driving (attempts ++ [a]) todo)
  | _,_ => e

/-- `on_receipt` and the first half of `settle`: the inclusion is queued. -/
def receipt (e : Engine) (p : Address) (r : Receipt) : Engine :=
  match e.workers p with
  | .driving attempts todo =>
    match attempts.find? fun a => a.txHash = r.transactionHash with
    | none => e
    | some a =>
      match inclusionFrom chain a r with
      | none => e
      | some inc =>
        (e.push (.inclusion a inc (chain.confirmCheck = .immediate))).setWorker p (.settling a inc todo)
  | _ => e

/-- The rest of `settle`, and what its callers do with a mined transaction. -/
def handOver (e : Engine) (p : Address) : Engine :=
  match e.workers p with
  | .settling a inc todo =>
    let e' := if chain.confirmCheck = .immediate then e else e.submit ⟨a,inc,0⟩
    ((e'.setPair p fun q => (q.resumeIf .stuckUnresolved).resumeIf .insufficientFunds).account
      .mined a).setWorker p (next todo)
  | _ => e

/-- How a nonce is left without a receipt. -/
inductive Leave
  | voided (foreign : Bool)
  | unresolved
  | needsRecovery (treasury : Bool)
deriving DecidableEq

/-- The worker is done with a job or a nonce that was not mined. -/
def leave (e : Engine) (p : Address) (l : Leave) : Engine :=
  match e.workers p with
  | .picked => e.setWorker p .idle
  | .driving _ todo =>
    match l with
    | .voided foreign =>
      (e.setPair p fun q => if foreign then q.requestRecovery else q).setWorker p (next todo)
    | .unresolved => (e.setPair p (Pair.pauseFor .nonceDrift .needsOperator)).setWorker p .idle
    | .needsRecovery treasury =>
      if todo.isSome then (e.setPair p (Pair.pauseFor .reorg .needsOperator)).setWorker p .idle
      else (e.setPair p fun q =>
        (if treasury then q else q.pauseFor .reorg .reconcilingNonce).requestRecovery).setWorker p .idle
  | _ => e

/-- `recover_pair` starts: the request is taken and a flush is queued. -/
def recover (e : Engine) (p : Address) : Engine :=
  match e.workers p with
  | .idle =>
    if (e.pairs p).recoveryRequested then
      ((e.setPair p fun q =>
        let q := { q with recoveryRequested := false }
        if q.pause.isSome then q else q.pauseFor .nonceDrift .reconcilingNonce).push
          (.flush (.recovery p))).setWorker p .flushing
    else e
  | _ => e

/-- What is live is loaded, or the load is retried. -/
def load (e : Engine) (c : ChainId) (p : Address) : Engine :=
  match e.workers p,loadLiveAttemptsFor e.store c p with
  | .loading,.ok live => e.setWorker p (.recovering (byNonce live))
  | _,_ => e

/-- The stored bytes of a nonce are sent again. -/
def rebroadcast (e : Engine) (p : Address) (group : List Attempt) (todo : List (List Attempt)) :
    Engine :=
  let attempts := (group.filter fun a => !a.rawTx.isEmpty).map fun a => { a with status := .broadcast }
  (e.setPair p fun q => q.pauseFor ((q.pause.map Pause.reason).getD .nonceDrift) .rebroadcasting).setWorker
    p (if attempts = [] then .recovering todo else .driving attempts (some todo))

/-- Recovery returns early and asks to be run again. -/
def retryRecovery (e : Engine) (p : Address) : Engine :=
  (e.setPair p Pair.requestRecovery).setWorker p .idle

/-- The next nonce of recovery: an attempt recorded as included is looked up first. -/
def look (e : Engine) (p : Address) (answer : Option (Option Receipt)) : Engine :=
  match e.workers p with
  | .recovering (group :: todo) =>
    match group.find? fun a => a.status = .included with
    | none => e.rebroadcast p group todo
    | some a =>
      match answer with
      | none => e.retryRecovery p
      | some r =>
        match r.bind (inclusionFrom chain a) with
        | none => e.setWorker p (.demoting a group todo)
        | some inc =>
          (if chain.confirmCheck = .immediate then
            (e.push (.confirmation a inc.block)).account .confirmed a
          else e.submit ⟨a,inc,0⟩).setWorker p (.recovering todo)
  | _ => e

/-- The inclusion that vanished is undone before anything else touches its nonce. -/
def undo (e : Engine) (p : Address) (call : Call) : Engine :=
  match e.workers p with
  | .demoting a group todo =>
    match e.demote call a a.block with
    | (.ok (),e') => (e'.account .demoted a).rebroadcast p group todo
    | (.error _,e') => e'.retryRecovery p
  | _ => e

/-- The end of `recover_pair`: nonce and balance are read, or it is run again. -/
def finish (e : Engine) (p : Address) (ok down : Bool) : Engine :=
  match e.workers p with
  | .recovering [] =>
    if ok then
      (e.setPair p fun q =>
        let q := ((q.resumeIf .booting).resumeIf .nonceDrift).resumeIf .reorg
        if down then q else q.resumeIf .chainOutage).setWorker p .idle
    else e.retryRecovery p
  | _ => e

end Workers

/-- A new process: only what is stored survives, and every pair starts with recovery. -/
def restart (e : Engine) (manual : Address → Bool) : Engine where
  store := Op.acquire.apply e.store
  queue := []
  written := false
  pending := []
  missing := none
  workers := fun _ => .idle
  pairs := fun p => .new (manual p)
  deadLetters := e.deadLetters
  log := .restarted :: e.log

def init : Engine where
  store := Store.empty
  queue := []
  written := false
  pending := []
  missing := none
  workers := fun _ => .idle
  pairs := fun _ => .new false
  deadLetters := []
  log := []

inductive Event
  | op (op : Op)
  | write (call : Call) (parks : Bool)
  | check (i : Nat) (view : View)
  | lookup (answer : Option (Option Receipt))
  | resolve (call : Call)
  | pick (p : Address)
  | bound (p : Address) (epoch : Int) (a : Attempt) (kind : BindKind)
  | receipt (p : Address) (r : Receipt)
  | handOver (p : Address)
  | leave (p : Address) (l : Leave)
  | recover (p : Address)
  | load (p : Address)
  | look (p : Address) (answer : Option (Option Receipt))
  | undo (p : Address) (call : Call)
  | finish (p : Address) (ok down : Bool)
  | pause (p : Address) (why : Pause)
  | resumeIf (p : Address) (reason : PauseReason)
  | requestRecovery (p : Address)
  | operatorResume (p : Address)
  | restart (manual : Address → Bool)

def step (chain : ChainCtx) (c : ChainId) (e : Engine) : Event → Engine
  | .op o => { e with store := o.apply e.store }
  | .write call parks => e.write call parks
  | .check i view => e.check chain i view
  | .lookup answer => e.lookup chain answer
  | .resolve call => e.resolve call
  | .pick p => e.pick p
  | .bound p epoch a kind => e.bound p epoch a kind
  | .receipt p r => e.receipt chain p r
  | .handOver p => e.handOver chain p
  | .leave p l => e.leave p l
  | .recover p => e.recover p
  | .load p => e.load c p
  | .look p answer => e.look chain p answer
  | .undo p call => e.undo p call
  | .finish p ok down => e.finish p ok down
  | .pause p why => e.setPair p (Pair.pauseFor why.reason why.recoveryStep)
  | .resumeIf p reason => e.setPair p (Pair.resumeIf reason)
  | .requestRecovery p => e.setPair p Pair.requestRecovery
  | .operatorResume p => e.setPair p fun q =>
      ((((q.resumeIf .manual).resumeIf .stuckUnresolved).resumeIf .nonceDrift).resumeIf
        .signerUnavailable).requestRecovery
  | .restart manual => e.restart manual

/-- The pauses besides those of recovery and of the verifier: an outage never masks another
pause, a picked job may lack funds or a signature, and a nonce funds or a remedy. -/
def Pauses (pair : Pair) : Worker → Pause → Prop
  | .picked,why => why ∈ [⟨.insufficientFunds,.awaitingTreasuryTopup⟩,
      ⟨.insufficientFunds,.awaitingTreasuryRefill⟩,⟨.signerUnavailable,.awaitingOperatorResume⟩] ∨
      pair.pause = none ∧ why = ⟨.chainOutage,.awaitingChainHead⟩
  | .driving _ _,why => why ∈ [⟨.insufficientFunds,.awaitingTreasuryRefill⟩,
      ⟨.stuckUnresolved,.needsOperator⟩] ∨
      pair.pause = none ∧ why = ⟨.chainOutage,.awaitingChainHead⟩
  | _,why => pair.pause = none ∧ why = ⟨.chainOutage,.awaitingChainHead⟩

end Engine

/-- What others do to the store: everything but the settlements of chain `c`; an attempt is
on the chain of its job. -/
def Op.Elsewhere (c : ChainId) (s : Store) : Op → Prop
  | .settleInclusion a _ _ | .settleConfirmation a | .updateInclusionBlock a _ _ _
  | .demoteInclusion a => a.chainId ≠ c ∧
      ∀ id, a.owner = .job id → ∀ j ∈ s.jobs.rows, j.id = id → j.request.chainId = a.chainId
  | _ => True

namespace Engine

/-- What the environment may do. A worker binds for its own pair; a pause for funds or for
the signer is lifted by whoever finds it over. -/
def Event.Possible (c : ChainId) (e : Engine) : Event → Prop
  | .op o => o.Issued e.store ∧ o.Elsewhere c e.store
  | .bound p _ a kind => a.chainId = c ∧ a.signer = p ∧ a.MayBind e.store kind
  | .pause p why => Pauses (e.pairs p) (e.workers p) why
  | .resumeIf _ reason => reason = .insufficientFunds ∨ reason = .signerUnavailable
  | _ => True

instance (pair : Pair) : ∀ (w : Worker) (why : Pause), Decidable (Pauses pair w why)
  | .picked,why => inferInstanceAs (Decidable
      (why ∈ [⟨.insufficientFunds,.awaitingTreasuryTopup⟩,
        ⟨.insufficientFunds,.awaitingTreasuryRefill⟩,
        ⟨.signerUnavailable,.awaitingOperatorResume⟩] ∨
        pair.pause = none ∧ why = ⟨.chainOutage,.awaitingChainHead⟩))
  | .driving _ _,why => inferInstanceAs (Decidable
      (why ∈ [⟨.insufficientFunds,.awaitingTreasuryRefill⟩,⟨.stuckUnresolved,.needsOperator⟩] ∨
        pair.pause = none ∧ why = ⟨.chainOutage,.awaitingChainHead⟩))
  | .idle,why | .settling _ _ _,why | .flushing,why | .loading,why
  | .recovering _,why | .demoting _ _ _,why => inferInstanceAs (Decidable
      (pair.pause = none ∧ why = ⟨.chainOutage,.awaitingChainHead⟩))

instance (c : ChainId) (s : Store) : DecidablePred (Op.Elsewhere c s)
  | .settleInclusion a _ _ | .settleConfirmation a | .updateInclusionBlock a _ _ _
  | .demoteInclusion a => inferInstanceAs (Decidable (a.chainId ≠ c ∧
      ∀ id, a.owner = .job id → ∀ j ∈ s.jobs.rows, j.id = id → j.request.chainId = a.chainId))
  | .insertJob _ _ | .createTopup _ _ _ _ _ | .bindAttempt _ _ _ | .voidBinding _ _ _ _ _
  | .failJob _ _ _ _ _ | .requeueFront _ _ | .cancelQueued _ | .acquire => .isTrue trivial

instance (c : ChainId) (e : Engine) : DecidablePred (Event.Possible c e)
  | .op o => inferInstanceAs (Decidable (o.Issued e.store ∧ o.Elsewhere c e.store))
  | .bound p _ a kind => inferInstanceAs
      (Decidable (a.chainId = c ∧ a.signer = p ∧ a.MayBind e.store kind))
  | .pause p why => inferInstanceAs (Decidable (Pauses (e.pairs p) (e.workers p) why))
  | .resumeIf _ reason => inferInstanceAs
      (Decidable (reason = .insufficientFunds ∨ reason = .signerUnavailable))
  | .write _ _ | .check _ _ | .lookup _ | .resolve _ | .pick _ | .receipt _ _ | .handOver _
  | .leave _ _ | .recover _ | .load _ | .look _ _ | .undo _ _ | .finish _ _ _
  | .requestRecovery _ | .operatorResume _ | .restart _ => .isTrue trivial

end Engine

/-- The tasks of one chain in every interleaving. -/
def confirmation (chain : ChainCtx) (c : ChainId) : Machine Engine Engine.Event where
  allowed e ev := ev.Possible c e
  step := Engine.step chain c

instance (chain : ChainCtx) (c : ChainId) (e : Engine) (ev : Engine.Event) :
    Decidable ((confirmation chain c).allowed e ev) :=
  inferInstanceAs (Decidable (ev.Possible c e))

end GumEngine
