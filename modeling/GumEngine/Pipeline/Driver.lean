import GumEngine.Pipeline.Bind
import GumEngine.Laws.Consistency

/-!
# The nonce driver

`pipeline/tx.rs` and `pipeline/recovery.rs`: one task per (signer, chain) pair signs,
binds, broadcasts and resolves one nonce after the other. The database, the nodes and the
miners decide what every call does and what the task learns of it; the process may be
restarted at any point. Balances, clocks and fee quotes only choose between the branches
below, so they are part of the environment's answers.
-/

namespace GumEngine
open Relational Transition

/-- How an adapter reads a failed send. -/
inductive SendErrorClass
  | alreadyKnown | acceptedPending | nonceTooLow | nonceTooHigh | feeTooLow
  | insufficientFunds | poolBusy | deterministic | indeterminate
deriving DecidableEq

inductive StuckStep
  | rebroadcast | diagnose | bump | noop
deriving DecidableEq

/-- What the driver reads off a chain's adapter and tunables. -/
structure ChainKind where
  stuckLadder : List StuckStep
  trustStatelessRejects : Bool
  maxBumps : Nat

/-- State of the nonce being driven, its attempts oldest first, and the locals of
`resolve`. `todo` are the nonces recovery goes on with; outside recovery it is `none`. -/
structure InFlight where
  owner : SlotOwner
  nonce : Nat
  older : List Attempt
  last : Attempt
  neverAccepted : Bool
  ladderPos : Nat
  bumps : Nat
  firstBroadcast : Bool
  parked : Bool
  todo : Option (List (List Attempt))
deriving DecidableEq

def PairKey.slot (p : PairKey) (nonce : Nat) : Slot := ⟨p.chainId,p.signer,nonce⟩

def InFlight.attempts (f : InFlight) : List Attempt := f.older ++ [f.last]

/-- What a bind is for. -/
inductive Goal
  | execute
  | replace (f : InFlight)
  | cancel (f : InFlight)
deriving DecidableEq

def Goal.kind : Goal → BindKind
  | execute => .first
  | replace _ => .replacement
  | cancel _ => .cancel

/-- Where the task of a pair stands. `down` waits for recovery, `paused` for an operator,
whose resume asks for recovery too, and `signerUnavailable` for the next try of the signer;
`left` counts the bind rounds after the present one. -/
inductive Activity
  | down | paused | signerUnavailable | idle
  | binding (goal : Goal) (a : Attempt) (left : Nat)
  | sending (f : InFlight)
  | polling (f : InFlight)
  | lookingBack (f : InFlight) (fresh parks : Bool)
  | replacing (f : InFlight)
  | cancelling (f : InFlight)
  | voiding (f : InFlight) (mode : VoidMode) (disposition : VoidDisposition)
  | recovering (todo : List (List Attempt))
deriving DecidableEq

def Goal.inFlight : Goal → Option InFlight
  | execute => none
  | replace f | cancel f => some f

/-- The nonce the task is working on, once bound. -/
def Activity.inFlight : Activity → Option InFlight
  | binding goal _ _ => goal.inFlight
  | sending f | polling f | lookingBack f _ _ | replacing f | cancelling f | voiding f _ _ => some f
  | down | paused | signerUnavailable | idle | recovering _ => none

/-- The bytes being sent. -/
def Activity.airs : Activity → List (Slot × B256)
  | sending f => [(f.last.slot,f.last.txHash)]
  | _ => []

/-- What the signer adds to the fields of a transaction, and its new id. -/
structure Signature where
  id : Uuid
  txHash : B256
  rawTx : Bytes
  gasLimit : Nat
  maxFeePerGas : Nat
  maxPriorityFeePerGas : Nat
  value : U256
deriving DecidableEq

def SlotOwner.purpose : SlotOwner → AttemptPurpose
  | .job _ => .job
  | .topup _ => .topup

def sign (p : PairKey) (owner : SlotOwner) (nonce : Nat) (purpose : AttemptPurpose)
    (g : Signature) : Attempt where
  id := g.id
  chainId := p.chainId
  signer := p.signer
  nonce := nonce
  purpose := purpose
  owner := owner
  txHash := g.txHash
  rawTx := g.rawTx
  gasLimit := g.gasLimit
  maxFeePerGas := g.maxFeePerGas
  maxPriorityFeePerGas := g.maxPriorityFeePerGas
  value := g.value
  status := .broadcast
  blockNumber := none
  blockHash := none

/-- The answer to a send. A receipt without block data is not usable. -/
inductive Answer
  | receipt (hash : B256) (usable : Bool)
  | accepted
  | notDelivered
  | error (kind : SendErrorClass) (text : String)
deriving DecidableEq

/-- What `escalate` finds out: the chain's nonce, and whether funds or fees fall short. -/
structure Diagnosis where
  chainNonce : Option Nat
  short : Bool
  underpriced : Bool
deriving DecidableEq

/-- The receipt of an attempt recorded as included; when there is none the inclusion is
undone, and the database answers `call`. -/
inductive Look
  | receipt
  | gone (call : Call)
  | failed
deriving DecidableEq

/-- What happens next to the task of a pair. The bytes of a send reach a node while it is under way,
or they arrive at any later time, whatever it was answered. -/
inductive Input
  | execute (owner : SlotOwner) (signed : Except SignerError Signature)
  | round (r : Round)
  | deliver
  | arrive (nonce : Nat) (txHash : B256)
  | answer (a : Answer)
  | lookBack (found : Option B256)
  | poll (found : Option B256)
  | escalate (d : Diagnosis)
  | sign (signed : Option Signature)
  | void (call : Call) (now : Nat)
  | recover
  | recoverNext (l : Look)
  | recoverDone (chainNonce : Option Nat)
  | resume
  | stop

/-! ## The functions of the driver -/

namespace InFlight

/-- The task after the nonce is done with. -/
def done (f : InFlight) : Activity :=
  match f.todo with
  | none => .idle
  | some todo => .recovering todo

/-- A gap below the nonce: the worker recovers the pair, recovery gives up. -/
def needsRecovery (f : InFlight) : Activity :=
  if f.todo.isNone then .down else .paused

/-- A usable receipt of one of the attempts settles the nonce. -/
def onReceipt (f : InFlight) (hash : B256) (usable : Bool) : Option Activity :=
  if usable && f.attempts.any (fun a => a.txHash = hash) then some f.done else none

def onSendError (chain : ChainKind) (f : InFlight) (text : String) : SendErrorClass → Activity
  | .alreadyKnown | .acceptedPending => .polling { f with neverAccepted := false }
  | .indeterminate => .polling f
  | .poolBusy => .sending f
  | .nonceTooLow => .lookingBack f f.neverAccepted false
  | .nonceTooHigh => f.needsRecovery
  | .feeTooLow => .replacing f
  -- `fund_and_retry` tops up or waits, and then sends again
  | .insufficientFunds => .sending f
  | .deterministic =>
    if f.neverAccepted && chain.trustStatelessRejects then
      .voiding f .nonceUnused (.fail .invalidTx ("rejected by the node: " ++ text))
    else .polling f

/-- What `resolve` does with the answer to a broadcast. -/
def onAnswer (chain : ChainKind) (f : InFlight) (a : Answer) : Activity :=
  let f := { f with firstBroadcast := false }
  match a with
  | .receipt hash usable => (f.onReceipt hash usable).getD (.polling f)
  | .accepted => .polling { f with neverAccepted := false }
  | .notDelivered => .sending { f with firstBroadcast := f.neverAccepted }
  | .error kind text => f.onSendError chain text kind

/-- `on_nonce_too_low`, once all lookups are made. From a send it ends the task; from the
ladder it parks the nonce. -/
def onNonceTooLow (f : InFlight) (fresh parks : Bool) (found : Option B256) : Activity :=
  match found.bind fun hash => f.onReceipt hash true with
  | some next => next
  | none =>
    if fresh then .voiding f .nonceTakenByForeignTx .requeue
    else if parks then .polling { f with parked := true }
    else .paused

/-- One step down the chain kind's stuck ladder. -/
def escalate (chain : ChainKind) (f : InFlight) (d : Diagnosis) : Activity :=
  let down := { f with ladderPos := f.ladderPos + 1 }
  match chain.stuckLadder[f.ladderPos]? with
  | none => .polling { f with parked := true }
  | some .rebroadcast => .sending down
  | some .diagnose =>
    match d.chainNonce with
    | none => .polling f
    | some n =>
      if n < f.nonce then f.needsRecovery
      else if f.nonce < n then .lookingBack down false true
      else if d.short then .sending down
      else .polling down
  | some .bump =>
    if d.underpriced && f.bumps < chain.maxBumps then .replacing f else .sending down
  | some .noop => .cancelling down

/-- The attempt a replacement copies. -/
def original (f : InFlight) : Option Attempt := f.attempts.find? fun a => a.purpose ≠ .cancel

/-- `replace_with_fresh_fees`; without quote, decoded target or signature it polls on. -/
def replaceWithFreshFees (chain : ChainKind) (p : PairKey) (f : InFlight)
    (signed : Option Signature) : Activity :=
  if f.bumps ≥ max chain.maxBumps 1 then .polling f else
  match f.original,signed with
  | some o,some g =>
    .binding (.replace f)
      (sign p f.owner f.nonce o.purpose { g with gasLimit := o.gasLimit, value := o.value }) 5
  | _,_ => .polling f

/-- `cancel`: a zero-value self-transfer at the same nonce. -/
def cancel (p : PairKey) (f : InFlight) (signed : Option Signature) : Activity :=
  match signed with
  | some g => .binding (.cancel f) (GumEngine.sign p f.owner f.nonce .cancel { g with value := 0 }) 5
  | none => .polling f

end InFlight

namespace Goal

/-- The nonce in flight once `a` is bound. -/
def bound (a : Attempt) : Goal → InFlight
  | execute => {
      owner := a.owner
      nonce := a.nonce
      older := []
      last := a
      neverAccepted := true
      ladderPos := 0
      bumps := 0
      firstBroadcast := true
      parked := false
      todo := none }
  | replace f => { f with older := f.older ++ [f.last], last := a, bumps := f.bumps + 1 }
  | cancel f => { f with older := f.older ++ [f.last], last := a }

/-- A bind that failed: behind a newer epoch the engine stops sending; a job goes back to
the queue; a nonce in flight keeps its attempts. -/
def notBound (e : StoreError) : Goal → Activity
  | execute => match e with
    | .fenced _ => .down
    | _ => .idle
  | replace f | cancel f => match e with
    | .fenced _ => .down
    | _ => .polling f

end Goal

/-- `by_nonce`: the attempts of each nonce, both in the order they were loaded. -/
def byNonce (live : List Attempt) : List (List Attempt) :=
  (live.map (·.nonce)).dedup.map fun n => live.filter fun a => a.nonce = n

/-- `TxDriver::resume`, on the attempts of a nonce whose bytes are stored. A nonce that
already carries a cancel is at the end of its ladder. -/
def resume (chain : ChainKind) (group : List Attempt) (todo : List (List Attempt)) : Activity :=
  let attempts := (group.filter fun a => !a.rawTx.isEmpty).map fun a => { a with status := .broadcast }
  match attempts with
  | [] => .recovering todo
  | first :: more => .sending {
      owner := first.owner
      nonce := first.nonce
      older := (first :: more).dropLast
      last := more.getLastD first
      neverAccepted := false
      ladderPos := if attempts.any (fun a => a.purpose = .cancel) then chain.stuckLadder.length else 0
      bumps := 0
      firstBroadcast := true
      parked := false
      todo := some todo }

/-- `ensure_pair` -/
def ensurePair (s : Store) (key : PairKey) : Store :=
  { s with pairs := s.pairs.upsert ⟨key,none⟩ (fun p => p) (fun _ => rfl) }

/-- `max(chain nonce, highest nonce ever bound + 1)` -/
def Store.nextNonce (s : Store) (key : PairKey) (chainNonce : Nat) : Nat :=
  let hwm := (s.pairs.rows.find? fun p => p.key = key).bind (·.nonceHwm)
  max chainNonce (hwm.elim 0 (· + 1))

/-! ## The system -/

/-- Who took a nonce on the chain. -/
inductive Mined
  | ours (txHash : B256)
  | foreign
deriving DecidableEq

/-- The database, the one running process, and the chains. `sent` are the bytes handed to the
network, `delivered` those some node took, `dead` those no block can hold. `signed` and `bound`
record the ids handed out and the attempts committed so far. -/
structure World where
  store : Store
  epoch : Int
  tasks : PairKey → Activity
  nextNonce : PairKey → Nat
  sent : List (Slot × B256)
  delivered : List (Slot × B256)
  dead : List B256
  mined : Slot → Option Mined
  signed : List Uuid
  bound : List Attempt

inductive Event
  | op (op : Op)
  | mine (k : Slot) (m : Mined)
  | restart
  | task (p : PairKey) (i : Input)

/-- Bytes rejected by a stateless rule are dead. -/
def Answer.kills (txHash : B256) : Answer → List B256
  | .error .deterministic _ => [txHash]
  | _ => []

/-- The call writes the attempt, whatever it answers. -/
def Call.commits (s : Store) (epoch : Int) (a : Attempt) (kind : BindKind) : Call → Bool
  | refused _ => false
  | _ => (bindAttempt s epoch a kind).isOk

namespace World

def init : World where
  store := Store.empty
  epoch := 0
  tasks := fun _ => .down
  nextNonce := fun _ => 0
  sent := []
  delivered := []
  dead := []
  mined := fun _ => none
  signed := []
  bound := []

def setTask (w : World) (p : PairKey) (t : Activity) : World :=
  { w with tasks := Function.update w.tasks p t, sent := t.airs ++ w.sent }

def setNextNonce (w : World) (p : PairKey) (n : Nat) : World :=
  { w with nextNonce := Function.update w.nextNonce p n }

/-- The first part of `execute`; a signer that fails pauses the pair until it is retried. -/
def execute (w : World) (p : PairKey) (owner : SlotOwner) :
    Except SignerError Signature → World
  | .error _ => w.setTask p .signerUnavailable
  | .ok g =>
    { w with signed := g.id :: w.signed }.setTask p
      (.binding .execute (GumEngine.sign p owner (w.nextNonce p) owner.purpose g) 5)

/-- What a round of the bind loop leaves in the database. -/
def written (w : World) (a : Attempt) (kind : BindKind) (r : Round) : World :=
  { w with
    store := (r.run w.store w.epoch a kind).2
    bound := if r.call.commits w.store w.epoch a kind then a :: w.bound else w.bound }

/-- One round of the bind loop. The nonce advances once its first attempt is stored. -/
def round (w : World) (p : PairKey) (goal : Goal) (a : Attempt) (left : Nat) (r : Round) : World :=
  let w' := w.written a goal.kind r
  match (r.run w.store w.epoch a goal.kind).1 with
  | .bound =>
    (w'.setNextNonce p (if goal = .execute then w.nextNonce p + 1 else w.nextNonce p)).setTask p
      (.sending (goal.bound a))
  | .failed e => w'.setTask p (goal.notBound e)
  | .retry e =>
    match left with
    | 0 => w'.setTask p (goal.notBound e)
    | n + 1 => w'.setTask p (.binding goal a n)

def answer (w : World) (chain : ChainKind) (p : PairKey) (f : InFlight) (a : Answer) : World :=
  { w with dead := a.kills f.last.txHash ++ w.dead }.setTask p (f.onAnswer chain a)

def sign (w : World) (p : PairKey) (t : Activity) (signed : Option Signature) : World :=
  { w with signed := signed.elim w.signed fun g => g.id :: w.signed }.setTask p t

/-- `TxDriver::void`. A nonce taken by someone else also asks for recovery. -/
def void (w : World) (p : PairKey) (f : InFlight) (mode : VoidMode)
    (disposition : VoidDisposition) (call : Call) (now : Nat) : World :=
  let res := call.answer w.store (voidBinding w.store w.epoch f.last mode disposition now)
  let w := { w with store := res.2 }
  match res.1 with
  | .ok () =>
    if mode = .nonceUnused then (w.setNextNonce p f.nonce).setTask p f.done
    else w.setTask p (if f.todo.isNone then .down else f.done)
  | .error (.fenced _) => w.setTask p .down
  | .error _ => w.setTask p (.polling f)

/-- The first part of `recover_pair`: what is live is loaded, or the load is retried. -/
def recover (w : World) (p : PairKey) : World :=
  match loadLiveAttemptsFor w.store p.chainId p.signer with
  | .ok live => w.setTask p (.recovering (byNonce live))
  | .error _ => w

/-- The next nonce of recovery. An inclusion that vanished is undone first. -/
def recoverNext (w : World) (chain : ChainKind) (p : PairKey) (group : List Attempt)
    (todo : List (List Attempt)) (l : Look) : World :=
  match group.find? fun a => a.status = .included with
  | none => w.setTask p (GumEngine.resume chain group todo)
  | some a =>
    match l with
    | .receipt => w.setTask p (.recovering todo)
    | .failed => w.setTask p .down
    | .gone call =>
      let res := call.answer w.store (.ok (demoteInclusion w.store a).2)
      let w := { w with store := res.2 }
      match res.1 with
      | .ok () => w.setTask p (GumEngine.resume chain group todo)
      | .error _ => w.setTask p .down

/-- One move of the task of `p`; an input that does not fit its activity does nothing. -/
def turn (chains : ChainId → ChainKind) (w : World) (p : PairKey) : Input → World
  | .execute owner signed =>
    match w.tasks p with
    | .idle => w.execute p owner signed
    | _ => w
  | .round r =>
    match w.tasks p with
    | .binding goal a left => w.round p goal a left r
    | _ => w
  | .deliver =>
    match w.tasks p with
    | .sending f => { w with delivered := (f.last.slot,f.last.txHash) :: w.delivered }
    | _ => w
  -- a nonce that the chain has taken makes them worthless
  | .arrive nonce txHash =>
    if (p.slot nonce,txHash) ∈ w.sent ∧ w.mined (p.slot nonce) = none then
      { w with delivered := (p.slot nonce,txHash) :: w.delivered }
    else w
  | .answer a =>
    match w.tasks p with
    | .sending f => w.answer (chains p.chainId) p f a
    | _ => w
  | .lookBack found =>
    match w.tasks p with
    | .lookingBack f fresh parks => w.setTask p (f.onNonceTooLow fresh parks found)
    | _ => w
  | .poll found =>
    match w.tasks p with
    | .polling f => w.setTask p ((found.bind fun h => f.onReceipt h true).getD (.polling f))
    | _ => w
  | .escalate d =>
    match w.tasks p with
    | .polling f => if f.parked then w else w.setTask p (f.escalate (chains p.chainId) d)
    | _ => w
  | .sign signed =>
    match w.tasks p with
    | .replacing f => w.sign p (f.replaceWithFreshFees (chains p.chainId) p signed) signed
    | .cancelling f => w.sign p (f.cancel p signed) signed
    | _ => w
  | .void call now =>
    match w.tasks p with
    | .voiding f mode disposition => w.void p f mode disposition call now
    | _ => w
  | .recover =>
    match w.tasks p with
    | .down | .paused | .signerUnavailable | .idle => w.recover p
    | _ => w
  | .recoverNext l =>
    match w.tasks p with
    | .recovering (group :: todo) => w.recoverNext (chains p.chainId) p group todo l
    | _ => w
  | .recoverDone chainNonce =>
    match w.tasks p with
    | .recovering [] =>
      let w := { w with store := ensurePair w.store p }
      match chainNonce with
      | none => w.setTask p .down
      | some n => (w.setNextNonce p (w.store.nextNonce p n)).setTask p .idle
    | _ => w
  | .resume =>
    match w.tasks p with
    | .signerUnavailable => w.setTask p .idle
    | _ => w
  | .stop =>
    match w.tasks p with
    | .sending _ | .polling _ | .recovering _ => w.setTask p .down
    | _ => w

def step (chains : ChainId → ChainKind) (w : World) : Event → World
  | .op op => { w with store := op.apply w.store }
  | .mine k m => { w with mined := Function.update w.mined k (some m) }
  -- a new process with a new epoch; only what is stored survives
  | .restart => { w with
      store := { w.store with leaseEpoch := w.store.leaseEpoch + 1 }
      epoch := w.store.leaseEpoch + 1
      tasks := fun _ => .down
      nextNonce := fun _ => 0 }
  | .task p i => w.turn chains p i

end World

/-- Binds and voids are the driver's own; an inclusion is settled for what was mined. -/
def Op.Possible (w : World) : Op → Prop
  | .bindAttempt _ _ _ | .voidBinding _ _ _ _ _ | .acquire => False
  | .settleInclusion a _ _ => a.Names w.store ∧ w.mined a.slot = some (.ours a.txHash)
  | op => op.Issued w.store

theorem Op.Possible.unfenced {w : World} {op : Op} (h : op.Possible w) : op.Unfenced = true := by
  cases op with
  | bindAttempt epoch a kind => cases h
  | voidBinding epoch a mode disposition now => cases h
  | acquire => cases h
  | _ => rfl

/-- Each nonce is taken once; ours are bytes that were delivered and are not dead. -/
def Mined.Possible (w : World) (k : Slot) : Mined → Prop
  | .ours h => w.mined k = none ∧ (k,h) ∈ w.delivered ∧ h ∉ w.dead
  | .foreign => w.mined k = none

/-- Receipts are those of mined bytes, and a node rejects as invalid only what is not
mined. -/
def Answer.Possible (w : World) (f : InFlight) : Answer → Prop
  | .receipt h _ => f.firstBroadcast = true ∧ w.mined f.last.slot = some (.ours h)
  | .error kind _ => kind = .deterministic → w.mined f.last.slot ≠ some (.ours f.last.txHash)
  | _ => True

/-- Ids are new; lookups may miss what is there but invent nothing. -/
def Input.Possible (w : World) (p : PairKey) : Input → Prop
  | .execute _ signed => ∀ g ∈ signed.toOption, g.id ∉ w.signed
  | .sign signed => ∀ g ∈ signed, g.id ∉ w.signed
  | .answer a => ∀ f ∈ (w.tasks p).inFlight, a.Possible w f
  | .lookBack found | .poll found =>
    ∀ f ∈ (w.tasks p).inFlight, ∀ h ∈ found, w.mined f.last.slot = some (.ours h)
  | _ => True

def Event.Possible (w : World) : Event → Prop
  | .op o => o.Possible w
  | .mine k m => m.Possible w k
  | .restart => True
  | .task p i => i.Possible w p

instance (w : World) : DecidablePred (Op.Possible w)
  | .bindAttempt _ _ _ | .voidBinding _ _ _ _ _ | .acquire => inferInstanceAs (Decidable False)
  | .settleInclusion a _ _ =>
    inferInstanceAs (Decidable (a.Names w.store ∧ w.mined a.slot = some (.ours a.txHash)))
  | .insertJob id request => inferInstanceAs (Decidable (Op.Issued w.store (.insertJob id request)))
  | .createTopup id chainId treasury signer amount => inferInstanceAs
      (Decidable (Op.Issued w.store (.createTopup id chainId treasury signer amount)))
  | .settleConfirmation a => inferInstanceAs (Decidable (Op.Issued w.store (.settleConfirmation a)))
  | .updateInclusionBlock a n h r => inferInstanceAs
      (Decidable (Op.Issued w.store (.updateInclusionBlock a n h r)))
  | .demoteInclusion a => inferInstanceAs (Decidable (Op.Issued w.store (.demoteInclusion a)))
  | .failJob id allowed failure message revertData => inferInstanceAs
      (Decidable (Op.Issued w.store (.failJob id allowed failure message revertData)))
  | .requeueFront id now => inferInstanceAs (Decidable (Op.Issued w.store (.requeueFront id now)))
  | .cancelQueued id => inferInstanceAs (Decidable (Op.Issued w.store (.cancelQueued id)))

instance (w : World) (k : Slot) : DecidablePred (Mined.Possible w k)
  | .ours h => inferInstanceAs (Decidable (w.mined k = none ∧ (k,h) ∈ w.delivered ∧ h ∉ w.dead))
  | .foreign => inferInstanceAs (Decidable (w.mined k = none))

instance (w : World) (f : InFlight) : DecidablePred (Answer.Possible w f)
  | .receipt h _ => inferInstanceAs
      (Decidable (f.firstBroadcast = true ∧ w.mined f.last.slot = some (.ours h)))
  | .error kind _ => inferInstanceAs
      (Decidable (kind = .deterministic → w.mined f.last.slot ≠ some (.ours f.last.txHash)))
  | .accepted | .notDelivered => .isTrue trivial

instance (w : World) (p : PairKey) : DecidablePred (Input.Possible w p)
  | .execute _ signed => inferInstanceAs (Decidable (∀ g ∈ signed.toOption, g.id ∉ w.signed))
  | .sign signed => inferInstanceAs (Decidable (∀ g ∈ signed, g.id ∉ w.signed))
  | .answer a => inferInstanceAs (Decidable (∀ f ∈ (w.tasks p).inFlight, a.Possible w f))
  | .lookBack found | .poll found => inferInstanceAs (Decidable
      (∀ f ∈ (w.tasks p).inFlight, ∀ h ∈ found, w.mined f.last.slot = some (.ours h)))
  | .round _ | .deliver | .arrive _ _ | .escalate _ | .void _ _ | .recover | .recoverNext _ | .recoverDone _
  | .resume | .stop => .isTrue trivial

instance (w : World) : DecidablePred (Event.Possible w)
  | .op o => inferInstanceAs (Decidable (o.Possible w))
  | .mine k m => inferInstanceAs (Decidable (m.Possible w k))
  | .restart => .isTrue trivial
  | .task p i => inferInstanceAs (Decidable (i.Possible w p))

/-- The driver under every environment. -/
def driver (chains : ChainId → ChainKind) : Machine World Event where
  allowed w e := e.Possible w
  step := World.step chains

instance (chains : ChainId → ChainKind) (w : World) (e : Event) :
    Decidable ((driver chains).allowed w e) :=
  inferInstanceAs (Decidable (e.Possible w))

namespace Sample

/-- The geth kind, on every chain. -/
def chains : ChainId → ChainKind := fun _ =>
  ⟨[.rebroadcast,.diagnose,.bump,.noop],true,5⟩

def pair : PairKey := ⟨1,9⟩

def signature (id hash : Nat) : Signature := ⟨id,hash,[UInt8.ofNat hash],21000,10,1,5⟩

/-- A round in which the database answers. -/
def round : Input := .round ⟨.answered,.answered⟩

/-- The pair finds nothing in flight and starts at nonce 0. -/
def boot : List Event := [.task pair .recover,.task pair (.recoverDone (some 0))]

end Sample

end GumEngine
