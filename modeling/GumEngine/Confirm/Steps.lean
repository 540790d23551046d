import GumEngine.Confirm.Engine

/-!
# What one step can do

`Engine.Step` lists the moves of the tasks with their guards and their effect on the whole
state; every invariant is a case analysis of it.
-/

namespace GumEngine
open Relational Transition

/-- The transaction fails in a way that is not retried. -/
def Call.permanent : Call → Bool
  | refused err => !err.isTransient
  | _ => false

/-- A note of a step from `s` to `s'` that is not about a write of the settler. -/
def Note.Aside (s s' : Store) : Note → Prop
  | included _ | confirmed _ _ _ => False
  | demoted a _ _ => s' = (demoteInclusion s a).2
  | _ => True

namespace Engine

variable {chain : ChainCtx} {c : ChainId} {e : Engine}

section Fields

variable (e) (p : Address)

@[simp] theorem push_store (op : SettleOp) : (e.push op).store = e.store := rfl
@[simp] theorem push_queue (op : SettleOp) : (e.push op).queue = e.queue ++ [op] := rfl
@[simp] theorem push_written (op : SettleOp) : (e.push op).written = e.written := rfl
@[simp] theorem push_pending (op : SettleOp) : (e.push op).pending = e.pending := rfl
@[simp] theorem push_missing (op : SettleOp) : (e.push op).missing = e.missing := rfl
@[simp] theorem push_workers (op : SettleOp) : (e.push op).workers = e.workers := rfl
@[simp] theorem push_pairs (op : SettleOp) : (e.push op).pairs = e.pairs := rfl
@[simp] theorem push_deadLetters (op : SettleOp) : (e.push op).deadLetters = e.deadLetters := rfl
@[simp] theorem push_log (op : SettleOp) : (e.push op).log = e.log := rfl

@[simp] theorem submit_store (i : PendingConfirmation) : (e.submit i).store = e.store := rfl
@[simp] theorem submit_queue (i : PendingConfirmation) : (e.submit i).queue = e.queue := rfl
@[simp] theorem submit_written (i : PendingConfirmation) : (e.submit i).written = e.written := rfl
@[simp] theorem submit_pending (i : PendingConfirmation) :
    (e.submit i).pending = e.pending ++ [i] := rfl
@[simp] theorem submit_missing (i : PendingConfirmation) : (e.submit i).missing = e.missing := rfl
@[simp] theorem submit_workers (i : PendingConfirmation) : (e.submit i).workers = e.workers := rfl
@[simp] theorem submit_pairs (i : PendingConfirmation) : (e.submit i).pairs = e.pairs := rfl
@[simp] theorem submit_deadLetters (i : PendingConfirmation) :
    (e.submit i).deadLetters = e.deadLetters := rfl
@[simp] theorem submit_log (i : PendingConfirmation) : (e.submit i).log = e.log := rfl

@[simp] theorem setWorker_store (w : Worker) : (e.setWorker p w).store = e.store := rfl
@[simp] theorem setWorker_queue (w : Worker) : (e.setWorker p w).queue = e.queue := rfl
@[simp] theorem setWorker_written (w : Worker) : (e.setWorker p w).written = e.written := rfl
@[simp] theorem setWorker_pending (w : Worker) : (e.setWorker p w).pending = e.pending := rfl
@[simp] theorem setWorker_missing (w : Worker) : (e.setWorker p w).missing = e.missing := rfl
@[simp] theorem setWorker_workers (w : Worker) :
    (e.setWorker p w).workers = Function.update e.workers p w := rfl
@[simp] theorem setWorker_pairs (w : Worker) : (e.setWorker p w).pairs = e.pairs := rfl
@[simp] theorem setWorker_deadLetters (w : Worker) :
    (e.setWorker p w).deadLetters = e.deadLetters := rfl
@[simp] theorem setWorker_log (w : Worker) : (e.setWorker p w).log = e.log := rfl

@[simp] theorem setPair_store (f : Pair → Pair) : (e.setPair p f).store = e.store := rfl
@[simp] theorem setPair_queue (f : Pair → Pair) : (e.setPair p f).queue = e.queue := rfl
@[simp] theorem setPair_written (f : Pair → Pair) : (e.setPair p f).written = e.written := rfl
@[simp] theorem setPair_pending (f : Pair → Pair) : (e.setPair p f).pending = e.pending := rfl
@[simp] theorem setPair_missing (f : Pair → Pair) : (e.setPair p f).missing = e.missing := rfl
@[simp] theorem setPair_workers (f : Pair → Pair) : (e.setPair p f).workers = e.workers := rfl
@[simp] theorem setPair_pairs (f : Pair → Pair) :
    (e.setPair p f).pairs = Function.update e.pairs p (f (e.pairs p)) := rfl
@[simp] theorem setPair_deadLetters (f : Pair → Pair) :
    (e.setPair p f).deadLetters = e.deadLetters := rfl
@[simp] theorem setPair_log (f : Pair → Pair) : (e.setPair p f).log = e.log := rfl

@[simp] theorem account_store (t : Account) (a : Attempt) : (e.account t a).store = e.store := rfl
@[simp] theorem account_queue (t : Account) (a : Attempt) : (e.account t a).queue = e.queue := rfl
@[simp] theorem account_written (t : Account) (a : Attempt) :
    (e.account t a).written = e.written := rfl
@[simp] theorem account_pending (t : Account) (a : Attempt) :
    (e.account t a).pending = e.pending := rfl
@[simp] theorem account_missing (t : Account) (a : Attempt) :
    (e.account t a).missing = e.missing := rfl
@[simp] theorem account_workers (t : Account) (a : Attempt) :
    (e.account t a).workers = e.workers := rfl
@[simp] theorem account_pairs (t : Account) (a : Attempt) : (e.account t a).pairs = e.pairs := rfl
@[simp] theorem account_deadLetters (t : Account) (a : Attempt) :
    (e.account t a).deadLetters = e.deadLetters := rfl
@[simp] theorem account_log (t : Account) (a : Attempt) :
    (e.account t a).log = .accounted t a :: e.log := rfl

end Fields

/-- The bytes of a nonce that recovery sends again. -/
def toResend (group : List Attempt) : List Attempt :=
  (group.filter fun a => !a.rawTx.isEmpty).map fun a => { a with status := .broadcast }

def resending (group : List Attempt) (todo : List (List Attempt)) : Worker :=
  if toResend group = [] then .recovering todo else .driving (toResend group) (some todo)

/-- The pause of a nonce that is sent again. -/
def pauseResending (q : Pair) : Pair :=
  q.pauseFor ((q.pause.map Pause.reason).getD .nonceDrift) .rebroadcasting

/-- The flags with which recovery starts and ends. -/
def pauseRecovering (q : Pair) : Pair :=
  let q := { q with recoveryRequested := false }
  if q.pause.isSome then q else q.pauseFor .nonceDrift .reconcilingNonce

def resumeRecovered (down : Bool) (q : Pair) : Pair :=
  let q := ((q.resumeIf .booting).resumeIf .nonceDrift).resumeIf .reorg
  if down then q else q.resumeIf .chainOutage

/-- How the flags change without a move of the worker. -/
inductive Flags (e : Engine) (p : Address) : Pair → Prop
  | pause {why : Pause} (h : Pauses (e.pairs p) (e.workers p) why) :
      Flags e p ((e.pairs p).pauseFor why.reason why.recoveryStep)
  | resume {reason : PauseReason} (h : reason = .insufficientFunds ∨ reason = .signerUnavailable) :
      Flags e p ((e.pairs p).resumeIf reason)
  | request (f : Pair → Pair) : Flags e p (f (e.pairs p)).requestRecovery

/-- The queue after a write that was answered, or whose answer was lost. -/
inductive Popped (e : Engine) (rest : List SettleOp) : List SettleOp → Bool → Prop
  | stays : Popped e rest e.queue true
  | gone : Popped e rest rest false

/-- The store after a call that does `s`: it may have come to nothing. -/
inductive Called (e : Engine) (s : Store) : Bool → Store → Prop
  | done : Called e s true s
  | refused : Called e s false e.store

/-- What the verifier notes of a demotion that is answered. -/
def undoing (e : Engine) (item : PendingConfirmation) : List Note :=
  (if (demoteInclusion e.store item.attempt).1 = .applied then
    [.accounted .demoted item.attempt] else []) ++ e.store.demotion item.attempt item.block

/-- The demotion, if the call reaches the store. -/
def noted (e : Engine) (call : Call) (a : Attempt) (observed : StoredBlock) : List Note :=
  if call.reaches then e.store.demotion a observed else []

inductive Step (chain : ChainCtx) (c : ChainId) (e : Engine) : Event → Engine → Prop
  | skip (ev : Event) : Step chain c e ev e
  | op {o : Op} (hi : o.Issued e.store) (he : o.Elsewhere c e.store) :
      Step chain c e (.op o) { e with store := o.apply e.store }
  -- the settler
  | signalled {w : Waiter} {rest : List SettleOp} {call : Call} {parks : Bool}
      (hq : e.queue = .flush w :: rest) :
      Step chain c e (.write call parks) ({ e with queue := rest, written := false }.signal w)
  | wrote {op : SettleOp} {rest queue : List SettleOp} {call : Call} {parks written : Bool}
      {st : Settled} {s : Store} (hf : ∀ w, op ≠ .flush w) (hq : e.queue = op :: rest)
      (hc : call.reaches = true) (hr : op.run e.store = .ok (st,s)) (hp : Popped e rest queue written) :
      Step chain c e (.write call parks) { e with
        store := s, queue := queue, written := written, log := op.notes s st ++ e.log }
  | parked {op : SettleOp} {rest : List SettleOp} {call : Call} {parks : Bool}
      (hf : ∀ w, op ≠ .flush w) (hq : e.queue = op :: rest)
      (he : call.permanent = true ∨ call.reaches = true ∧ ∃ err, op.run e.store = .error err) :
      Step chain c e (.write call parks) { e with
        queue := rest, written := false, deadLetters := if parks then op :: e.deadLetters else e.deadLetters }
  -- the verifier
  | confirmed {i : Nat} {view : View} {item : PendingConfirmation} {found : BlockRef}
      (hm : e.missing = none) (hi : e.pending[i]? = some item)
      (hv : GumEngine.check chain.confirmCheck item.inclusion view = .confirmed found) :
      Step chain c e (.check i view) (({ e with pending := e.pending.eraseIdx i }.push
        (.confirmation item.attempt found)).account .confirmed item.attempt)
  | kept {i : Nat} {view : View} {item : PendingConfirmation} (misses : Nat)
      (hm : e.missing = none) (hi : e.pending[i]? = some item) :
      Step chain c e (.check i view)
        ({ e with pending := e.pending.eraseIdx i }.submit { item with misses := misses })
  | asked {i : Nat} {view : View} {item : PendingConfirmation} (misses : Nat)
      (hm : e.missing = none) (hi : e.pending[i]? = some item) :
      Step chain c e (.check i view) { e with
        pending := e.pending.eraseIdx i, missing := some (.asking { item with misses := misses }) }
  | stayed {item : PendingConfirmation} {answer : Option (Option Receipt)} (misses : Nat)
      (hm : e.missing = some (.asking item)) :
      Step chain c e (.lookup answer) ({ e with missing := none }.submit { item with misses := misses })
  | vanished {item : PendingConfirmation} (hm : e.missing = some (.asking item)) :
      Step chain c e (.lookup (some none))
        ({ e with missing := some (.vanished item false) }.push (.flush .verifier))
  | moved {item : PendingConfirmation} {r : Receipt} {m : Inclusion}
      (hm : e.missing = some (.asking item)) (hr : inclusionFrom chain item.attempt r = some m) :
      Step chain c e (.lookup (some (some r)))
        ({ e with missing := some (.moved { item with
          misses := 0
          inclusion := { item.inclusion with
            blockNumber := m.blockNumber, blockHash := m.blockHash, receipt := m.receipt } }
          false) }.push (.flush .verifier))
  | updated {item : PendingConfirmation} {call : Call} {s : Store}
      (hm : e.missing = some (.moved item true))
      (hs : Called e (updateInclusionBlock e.store item.attempt item.inclusion.blockNumber
        item.inclusion.blockHash item.inclusion.receipt) call.reaches s) :
      Step chain c e (.resolve call) ({ e with store := s, missing := none }.submit item)
  | undone {item : PendingConfirmation} {call : Call}
      (hm : e.missing = some (.vanished item true)) :
      Step chain c e (.resolve call)
        ({ e with
          store := (demoteInclusion e.store item.attempt).2
          missing := none
          log := e.undoing item ++ e.log }.setPair item.attempt.signer
          fun p => (p.pauseFor .reorg .reconcilingNonce).requestRecovery)
  | notUndone {item : PendingConfirmation} {call : Call} {s : Store}
      (hm : e.missing = some (.vanished item true))
      (hs : Called e (demoteInclusion e.store item.attempt).2 call.reaches s) :
      Step chain c e (.resolve call) ({ e with
        store := s
        missing := none
        log := e.noted call item.attempt item.block ++ e.log }.submit item)
  -- the workers
  | picked {p : Address} (hw : e.workers p = .idle) (hp : (e.pairs p).pause = none) :
      Step chain c e (.pick p) (e.setWorker p .picked)
  | boundFirst {p : Address} {epoch : Int} {a : Attempt} {s : Store}
      (hw : e.workers p = .picked) (hc : a.chainId = c) (hs : a.signer = p)
      (hm : a.MayBind e.store .first) (hb : bindAttempt e.store epoch a .first = .ok s) :
      Step chain c e (.bound p epoch a .first)
        ({ e with store := s }.setWorker p (.driving [a] none))
  | boundMore {p : Address} {epoch : Int} {a : Attempt} {kind : BindKind} {s : Store}
      {attempts : List Attempt} {todo : Option (List (List Attempt))}
      (hw : e.workers p = .driving attempts todo) (hc : a.chainId = c) (hs : a.signer = p)
      (hm : a.MayBind e.store kind) (hb : bindAttempt e.store epoch a kind = .ok s) :
      Step chain c e (.bound p epoch a kind)
        ({ e with store := s }.setWorker p (.driving (attempts ++ [a]) todo))
  | settled {p : Address} {r : Receipt} {a : Attempt} {inc : Inclusion}
      {attempts : List Attempt} {todo : Option (List (List Attempt))}
      (hw : e.workers p = .driving attempts todo)
      (ha : attempts.find? (fun a => a.txHash = r.transactionHash) = some a)
      (hi : inclusionFrom chain a r = some inc) :
      Step chain c e (.receipt p r) ((e.push (.inclusion a inc
        (chain.confirmCheck = .immediate))).setWorker p (.settling a inc todo))
  | handedOver {p : Address} {a : Attempt} {inc : Inclusion}
      {todo : Option (List (List Attempt))} (hw : e.workers p = .settling a inc todo) :
      Step chain c e (.handOver p)
        ((((if chain.confirmCheck = .immediate then e else e.submit ⟨a,inc,0⟩).setPair p
          fun q => (q.resumeIf .stuckUnresolved).resumeIf .insufficientFunds).account
          .mined a).setWorker p (next todo))
  | dropped {p : Address} {l : Leave} (hw : e.workers p = .picked) :
      Step chain c e (.leave p l) (e.setWorker p .idle)
  | voided {p : Address} {foreign : Bool} {attempts : List Attempt}
      {todo : Option (List (List Attempt))} (hw : e.workers p = .driving attempts todo) :
      Step chain c e (.leave p (.voided foreign))
        ((e.setPair p fun q => if foreign then q.requestRecovery else q).setWorker p (next todo))
  | stuck {p : Address} {l : Leave} {reason : PauseReason} {attempts : List Attempt}
      {todo : Option (List (List Attempt))} (hw : e.workers p = .driving attempts todo)
      (hr : reason = .nonceDrift ∨ reason = .reorg) :
      Step chain c e (.leave p l) ((e.setPair p (Pair.pauseFor reason .needsOperator)).setWorker p .idle)
  | needsRecovery {p : Address} {l : Leave} {f : Pair → Pair} {attempts : List Attempt}
      (hw : e.workers p = .driving attempts none) :
      Step chain c e (.leave p l)
        ((e.setPair p fun q => (f q).requestRecovery).setWorker p .idle)
  -- recovery
  | recovering {p : Address} (hw : e.workers p = .idle)
      (hr : (e.pairs p).recoveryRequested = true) :
      Step chain c e (.recover p) (((e.setPair p pauseRecovering).push
        (.flush (.recovery p))).setWorker p .flushing)
  | loaded {p : Address} {live : List Attempt} (hw : e.workers p = .loading)
      (hl : loadLiveAttemptsFor e.store c p = .ok live) :
      Step chain c e (.load p) (e.setWorker p (.recovering (byNonce live)))
  | rebroadcast {p : Address} {answer : Option (Option Receipt)} {group : List Attempt}
      {todo : List (List Attempt)} (hw : e.workers p = .recovering (group :: todo))
      (hn : group.find? (fun a => a.status = .included) = none) :
      Step chain c e (.look p answer)
        ((e.setPair p pauseResending).setWorker p (resending group todo))
  | lookFailed {p : Address} {todo : List (List Attempt)}
      (hw : e.workers p = .recovering todo) : Step chain c e (.look p none) (e.retryRecovery p)
  | gone {p : Address} {r : Option Receipt} {a : Attempt} {group : List Attempt}
      {todo : List (List Attempt)} (hw : e.workers p = .recovering (group :: todo))
      (ha : group.find? (fun a => a.status = .included) = some a) :
      Step chain c e (.look p (some r)) (e.setWorker p (.demoting a group todo))
  | resubmitted {p : Address} {r : Receipt} {a : Attempt} {inc : Inclusion}
      {group : List Attempt} {todo : List (List Attempt)}
      (hw : e.workers p = .recovering (group :: todo))
      (ha : group.find? (fun a => a.status = .included) = some a)
      (hi : inclusionFrom chain a r = some inc) (hc : chain.confirmCheck ≠ .immediate) :
      Step chain c e (.look p (some (some r)))
        ((e.submit ⟨a,inc,0⟩).setWorker p (.recovering todo))
  | confirmedAtOnce {p : Address} {r : Receipt} {a : Attempt} {inc : Inclusion}
      {group : List Attempt} {todo : List (List Attempt)}
      (hw : e.workers p = .recovering (group :: todo))
      (ha : group.find? (fun a => a.status = .included) = some a)
      (hi : inclusionFrom chain a r = some inc) (hc : chain.confirmCheck = .immediate) :
      Step chain c e (.look p (some (some r)))
        (((e.push (.confirmation a inc.block)).account .confirmed a).setWorker p (.recovering todo))
  | demoted {p : Address} {call : Call} {a : Attempt} {group : List Attempt}
      {todo : List (List Attempt)} (hw : e.workers p = .demoting a group todo)
      (hc : call = .answered) :
      Step chain c e (.undo p call)
        ((({ e with
          store := (demoteInclusion e.store a).2
          log := e.store.demotion a a.block ++ e.log }.account .demoted a).setPair p pauseResending).setWorker p (resending group todo))
  | notDemoted {p : Address} {call : Call} {a : Attempt} {group : List Attempt}
      {todo : List (List Attempt)} {s : Store} (hw : e.workers p = .demoting a group todo)
      (hs : Called e (demoteInclusion e.store a).2 call.reaches s) :
      Step chain c e (.undo p call)
        ({ e with
          store := s
          log := e.noted call a a.block ++ e.log }.retryRecovery p)
  | finished {p : Address} {down : Bool} (hw : e.workers p = .recovering []) :
      Step chain c e (.finish p true down)
        ((e.setPair p (resumeRecovered down)).setWorker p .idle)
  | unfinished {p : Address} {down : Bool} (hw : e.workers p = .recovering []) :
      Step chain c e (.finish p false down) (e.retryRecovery p)
  | flags {p : Address} {q : Pair} {ev : Event} (h : Flags e p q) :
      Step chain c e ev { e with pairs := Function.update e.pairs p q }
  | restarted (manual : Address → Bool) : Step chain c e (.restart manual) (e.restart manual)

theorem Step.write (call : Call) (parks : Bool) :
    Step chain c e (.write call parks) (e.write call parks) := by
  unfold Engine.write
  split
  · exact .skip _
  · next w rest hq => exact .signalled hq
  · next op rest hf hq =>
    have hf' : ∀ w, op ≠ .flush w := fun w hw => hf w hw
    cases hr : op.run e.store with
    | error err =>
      -- nothing is written
      cases call with
      | answered =>
        simp only [Call.answer,Except.map,List.nil_append,Except.isOk,Except.toBool,Bool.and_false,
          Bool.or_false]
        split
        · exact .skip _
        · exact .parked hf' hq (.inr ⟨rfl,err,hr⟩)
      | lost err' =>
        simp only [Call.answer,Except.map,Store.commit,List.nil_append,err'.2,if_true,Except.isOk,
          Except.toBool,Bool.and_false,Bool.or_false]
        exact .skip _
      | refused err' =>
        simp only [Call.answer,List.nil_append,Except.isOk,Except.toBool,Bool.and_false,Bool.or_false]
        split
        · exact .skip _
        · next ht => exact .parked hf' hq (.inl (by simpa [Call.permanent] using ht))
    | ok x =>
      obtain ⟨st,s⟩ := x
      cases call with
      | answered =>
        simp only [Call.answer,Except.map,Call.reaches,if_true]
        exact .wrote hf' hq rfl hr .gone
      | lost err =>
        simp only [Call.answer,Except.map,Call.reaches,Store.commit,if_true,err.2,Except.isOk,
          Except.toBool,Bool.and_true,Bool.or_true]
        exact .wrote hf' hq rfl hr .stays
      | refused err =>
        simp only [Call.answer,Call.reaches,Bool.false_eq_true,if_false,List.nil_append,
          Bool.false_and,Bool.or_false]
        split
        · exact .skip _
        · next ht => exact .parked hf' hq (.inl (by simpa [Call.permanent] using ht))

theorem Step.check (i : Nat) (view : View) :
    Step chain c e (.check i view) (e.check chain i view) := by
  unfold Engine.check
  split
  · next item hm hi =>
    dsimp only
    split
    · next found hv => exact .confirmed hm hi hv
    · exact .kept item.misses hm hi
    · split
      · exact .kept _ hm hi
      · exact .asked _ hm hi
  · exact .skip _

theorem Step.lookup (answer : Option (Option Receipt)) :
    Step chain c e (.lookup answer) (e.lookup chain answer) := by
  unfold Engine.lookup
  split
  · next item hm =>
    dsimp only
    split
    · exact .stayed item.misses hm
    · exact .vanished hm
    · split
      · exact .stayed 0 hm
      · next m hr =>
        split
        · exact .stayed 0 hm
        · exact .moved hm hr
  · exact .skip _

/-- A call that cannot fail by itself. -/
theorem answer_ok (call : Call) (s : Store) :
    call.answer e.store (.ok s) = (.ok (),s) ∧ call = .answered ∨
      ∃ err m, call.answer e.store (.ok s) = (.error err,m) ∧ Called e s call.reaches m := by
  cases call with
  | answered => exact .inl ⟨rfl,rfl⟩
  | lost err => exact .inr ⟨_,_,rfl,.done⟩
  | refused err => exact .inr ⟨_,_,rfl,.refused⟩

theorem Step.resolve (call : Call) : Step chain c e (.resolve call) (e.resolve call) := by
  unfold Engine.resolve
  split
  · next item hm =>
    dsimp only
    rcases answer_ok (e := e) call (updateInclusionBlock e.store item.attempt
      item.inclusion.blockNumber item.inclusion.blockHash item.inclusion.receipt) with
      ⟨h,rfl⟩ | ⟨err,m,h,hs⟩
    · rw [h]
      exact .updated hm .done
    · rw [h]
      exact .updated hm hs
  · next item hm =>
    dsimp only [Engine.demote]
    rcases answer_ok (e := e) call (demoteInclusion e.store item.attempt).2 with
      ⟨h,rfl⟩ | ⟨err,m,h,hs⟩
    · simp only [h,Call.reaches,if_true]
      have hstep : Step chain c e (.resolve .answered) _ := .undone hm
      unfold undoing at hstep
      split at hstep
      · next ha =>
        simp only [ha,if_true]
        exact hstep
      · next ha =>
        simp only [ha,if_false]
        exact hstep
    · simp only [h]
      exact .notUndone hm hs
  · exact .skip _

theorem Step.bound {p : Address} {epoch : Int} {a : Attempt} {kind : BindKind}
    (hc : a.chainId = c) (hs : a.signer = p) (hm : a.MayBind e.store kind) :
    Step chain c e (.bound p epoch a kind) (e.bound p epoch a kind) := by
  unfold Engine.bound
  split
  · next s hb hw =>
    split
    · next hk =>
      subst hk
      exact .boundFirst hw hc hs hm hb
    · exact .skip _
  · next s attempts todo hb hw =>
    split
    · exact .skip _
    · exact .boundMore hw hc hs hm hb
  · exact .skip _

theorem Step.receipt (p : Address) (r : Receipt) :
    Step chain c e (.receipt p r) (e.receipt chain p r) := by
  unfold Engine.receipt
  split
  · next attempts todo hw =>
    split
    · exact .skip _
    · next a ha =>
      split
      · exact .skip _
      · next inc hi => exact .settled hw ha hi
  · exact .skip _

theorem Step.leave (p : Address) (l : Leave) : Step chain c e (.leave p l) (e.leave p l) := by
  unfold Engine.leave
  split
  · next hw => exact .dropped hw
  · next attempts todo hw =>
    cases l with
    | voided foreign => exact .voided hw
    | unresolved => exact .stuck hw (.inl rfl)
    | needsRecovery treasury =>
      dsimp only
      cases todo with
      | some todo => exact .stuck hw (.inr rfl)
      | none => exact .needsRecovery hw
  · exact .skip _

theorem Step.look (p : Address) (answer : Option (Option Receipt)) :
    Step chain c e (.look p answer) (e.look chain p answer) := by
  unfold Engine.look
  split
  · next group todo hw =>
    split
    · next hn => exact .rebroadcast hw hn
    · next a ha =>
      split
      · exact .lookFailed hw
      · next r =>
        split
        · exact .gone hw ha
        · next inc hi =>
          obtain ⟨receipt,rfl,hi⟩ := Option.bind_eq_some_iff.mp hi
          split
          · next hc => exact .confirmedAtOnce hw ha hi hc
          · next hc => exact .resubmitted hw ha hi hc
  · exact .skip _

theorem Step.undo (p : Address) (call : Call) : Step chain c e (.undo p call) (e.undo p call) := by
  unfold Engine.undo
  split
  · next a group todo hw =>
    dsimp only [Engine.demote]
    rcases answer_ok (e := e) call (demoteInclusion e.store a).2 with ⟨h,hc⟩ | ⟨err,m,h,hs⟩
    · simp only [hc,Call.reaches,if_true]
      exact .demoted hw rfl
    · simp only [h]
      exact .notDemoted hw hs
  · exact .skip _

/-- Every event is one of the moves. -/
theorem Step.of_possible {ev : Event} (h : ev.Possible c e) :
    Step chain c e ev (e.step chain c ev) := by
  cases ev with
  | op o => exact .op h.1 h.2
  | write call parks => exact Step.write call parks
  | check i view => exact Step.check i view
  | lookup answer => exact Step.lookup answer
  | resolve call => exact Step.resolve call
  | pick p =>
    simp only [step,Engine.pick]
    split
    · next hw =>
      split
      · next hp => exact .picked hw hp
      · exact .skip _
    · exact .skip _
  | bound p epoch a kind => exact Step.bound h.1 h.2.1 h.2.2
  | receipt p r => exact Step.receipt p r
  | handOver p =>
    simp only [step,Engine.handOver]
    split
    · next hw => exact .handedOver hw
    · exact .skip _
  | leave p l => exact Step.leave p l
  | recover p =>
    simp only [step,Engine.recover]
    split
    · next hw =>
      split
      · next hr => exact .recovering hw hr
      · exact .skip _
    · exact .skip _
  | load p =>
    simp only [step,Engine.load]
    split
    · next live hw hl => exact .loaded hw hl
    · exact .skip _
  | look p answer => exact Step.look p answer
  | undo p call => exact Step.undo p call
  | finish p ok down =>
    simp only [step,Engine.finish]
    split
    · next hw =>
      cases ok with
      | true => exact .finished hw
      | false => exact .unfinished hw
    · exact .skip _
  | pause p why => exact .flags (.pause h)
  | resumeIf p reason => exact .flags (.resume h)
  | requestRecovery p => exact .flags (.request fun q => q)
  | operatorResume p => exact .flags (.request fun q =>
      (((q.resumeIf .manual).resumeIf .stuckUnresolved).resumeIf .nonceDrift).resumeIf
        .signerUnavailable)
  | restart manual => exact .restarted manual

/-! ## The log -/

theorem demotion_aside {a : Attempt} {observed : StoredBlock} :
    ∀ n ∈ e.store.demotion a observed, n.Aside e.store (demoteInclusion e.store a).2 := by
  intro n hn
  unfold Store.demotion at hn
  split at hn
  · rw [List.mem_singleton.mp hn]
    rfl
  · cases hn

theorem noted_aside {call : Call} {a : Attempt} {observed : StoredBlock} {s : Store}
    (hs : Called e (demoteInclusion e.store a).2 call.reaches s) :
    ∀ n ∈ e.noted call a observed, n.Aside e.store s := by
  intro n hn
  unfold noted at hn
  split at hn
  · next hr =>
    rw [hr] at hs
    cases hs
    exact demotion_aside n hn
  · cases hn

theorem undoing_aside {item : PendingConfirmation} :
    ∀ n ∈ e.undoing item, n.Aside e.store (demoteInclusion e.store item.attempt).2 := by
  intro n hn
  rcases List.mem_append.mp hn with hn | hn
  · split at hn
    · rw [List.mem_singleton.mp hn]
      trivial
    · cases hn
  · exact demotion_aside n hn

end Engine

end GumEngine
