import GumEngine.Queue.JobQueue
import GumEngine.Transition.Machine

/-!
# The jobs of one chain in memory

What one leader does with the jobs of a chain between their submission and the moment they
are mined or failed: the submit handler and `admin_cancel_job` of `api.rs`, the sweep of
`leader.rs`, `worker::run` of `pipeline/worker.rs` with its dispositions, the counters of
`stats.rs` and the accounting of jobs that were left in flight. Every lock section and every
statement of the store is a step of its own, so a row the sweep has read may be stale when it
is offered.
-/

namespace GumEngine
open Transition

/-- Where a job currently is; `processing` is popped by a signer but not yet bound. -/
inductive Bucket
  | queued | processing | inFlight | included | succeeded | reverted | failed
deriving DecidableEq, Repr

structure Counts where
  slot : Bucket → Nat
  total : Nat

def Counts.add (c : Counts) (b : Bucket) : Counts :=
  ⟨Function.update c.slot b (c.slot b+1),c.total+1⟩

/-- Saturating, like the counters. -/
def Counts.sub (c : Counts) (b : Bucket) : Counts :=
  ⟨Function.update c.slot b (c.slot b-1),c.total-1⟩

section

variable (S : Type)

/-- The counters of one chain; `none` holds jobs that have not reached a signer. -/
structure Stats where
  counts : Option S → Counts

/-- A bucket of one signer, or of none. -/
abbrev StatsSlot := Option S × Bucket

/-- What the store says of a job. -/
inductive StoredAt
  | queued
  | sent (signer : S)
  | included (signer : S)
  | ended (signer : Option S) (bucket : Bucket)
deriving DecidableEq

/-- A job that its worker left mined or in flight. -/
structure LeftJob where
  id : JobId
  signer : S
  included : Bool
deriving DecidableEq

end

/-- How the processing of a job ends, as far as the worker has something left to do. -/
inductive Disposition
  | failed
  | failedAfterBind
  | requeue (afterBind : Bool)
  | dropped
deriving DecidableEq, Repr

/-- Where a worker is with its job. -/
inductive TaskAt
  | idle
  | popped (j : JobId)
  | processing (j : JobId)
  | sending (j : JobId)
  | bound (j : JobId)
  | ending (j : JobId) (d : Disposition)
  | forgetting (j : JobId)
  | pushing (j : JobId)
deriving DecidableEq, Repr

/-- The job a worker holds. -/
def TaskAt.job : TaskAt → Option JobId
  | idle => none
  | popped j | processing j | sending j | bound j | ending j _ | forgetting j | pushing j => some j

/-- Where an operator's cancel is, and whether the job was waiting. -/
inductive CancelAt
  | removed (waiting : Bool)
  | committed (waiting : Bool)
deriving DecidableEq, Repr

/-- `offers` are rows that a handler or the sweep has read, `counting` jobs that were admitted
and are not in the counters yet. -/
structure Desk (S : Type) where
  stored : JobId → Option (StoredAt S)
  queue : JobQueue
  worker : S → TaskAt
  offers : List JobId
  counting : List JobId
  cancels : List (JobId × CancelAt)
  left : List (LeftJob S)
  stats : Stats S

/-- `max_depth`, and whether the chain confirms on inclusion. -/
structure DeskConfig where
  maxDepth : Nat
  immediate : Bool

inductive DeskEvent (S : Type)
  | submit (j : JobId)
  | sweep (page : List JobId)
  | resetOverflow
  | admitJob (j : JobId)
  | count (j : JobId)
  | pop (w : S)
  | putBack (w : S)
  | start (w : S)
  /-- `fail_unbound`. -/
  | fail (w : S)
  /-- Gas, fees or funds are not to be had; the job goes back. -/
  | retry (w : S)
  | send (w : S)
  | bind (w : S)
  /-- The signer, the store or the RPC failed before anything was bound. -/
  | notBound (w : S)
  | void (w : S) (requeue : Bool)
  | mined (w : S) (purpose : AttemptPurpose) (outcome : Outcome)
  /-- Unresolved, or in need of recovery. -/
  | leave (w : S)
  /-- The counters of a disposition. -/
  | finish (w : S)
  /-- The queue's part of a disposition. -/
  | release (w : S)
  | cancel (j : JobId)
  | cancelStore (j : JobId) (waiting : Bool)
  | cancelLost (j : JobId) (waiting : Bool)
  | cancelCount (j : JobId) (waiting : Bool)
  /-- The store's part of an inclusion, a confirmation or a demotion. -/
  | settle (j : JobId) (st : StoredAt S)
  /-- Accounting of a job that was left: mined or demoted. -/
  | accountMoved (job : LeftJob S)
  /-- Accounting of a job that was left: confirmed, or its cancel was. -/
  | accountEnded (job : LeftJob S) (outcome : Outcome)

variable {S : Type}

def Outcome.terminalBucket : Outcome → Bucket
  | .success => .succeeded
  | .reverted => .reverted

namespace Stats

variable [DecidableEq S]

def add (st : Stats S) (p : StatsSlot S) : Stats S :=
  ⟨Function.update st.counts p.1 ((st.counts p.1).add p.2)⟩

def sub (st : Stats S) (p : StatsSlot S) : Stats S :=
  ⟨Function.update st.counts p.1 ((st.counts p.1).sub p.2)⟩

/-- Moves one job between buckets, possibly attributing it to a signer along the way. -/
def transition (st : Stats S) (source target : StatsSlot S) : Stats S := (st.sub source).add target

/-- How many jobs a bucket has. -/
def count (st : Stats S) (p : StatsSlot S) : Nat := (st.counts p.1).slot p.2

theorem count_add (st : Stats S) (a p : StatsSlot S) :
    (st.add a).count p = st.count p+if a = p then 1 else 0 := by
  obtain ⟨o,b⟩ := a
  obtain ⟨o',b'⟩ := p
  unfold count add
  by_cases ho : o = o'
  · subst ho
    by_cases hb : b = b'
    · simp [Counts.add,hb]
    · simp [Counts.add,hb,Ne.symm hb]
  · simp [ho,Ne.symm ho]

theorem count_sub (st : Stats S) (a p : StatsSlot S) :
    (st.sub a).count p = st.count p-if a = p then 1 else 0 := by
  obtain ⟨o,b⟩ := a
  obtain ⟨o',b'⟩ := p
  unfold count sub
  by_cases ho : o = o'
  · subst ho
    by_cases hb : b = b'
    · simp [Counts.sub,hb]
    · simp [Counts.sub,hb,Ne.symm hb]
  · simp [ho,Ne.symm ho]

theorem count_transition (st : Stats S) (a b p : StatsSlot S) :
    (st.transition a b).count p =
      (st.count p-if a = p then 1 else 0)+if b = p then 1 else 0 := by
  rw [transition,count_add,count_sub]

end Stats

namespace Desk

variable [DecidableEq S]

/-- A leader starts: nothing is loaded yet, and `left` are the live jobs of the store, whose
nonces recovery takes up. -/
def boot (window : Nat) (stored : JobId → Option (StoredAt S)) (left : List (LeftJob S))
    (stats : Stats S) : Desk S where
  stored := stored
  queue := .new window
  worker _ := .idle
  offers := []
  counting := []
  cancels := []
  left := left
  stats := stats

/-- A leader that starts with an empty store. -/
def init (window : Nat) : Desk S := boot window (fun _ => none) [] ⟨fun _ => ⟨fun _ => 0,0⟩⟩

def goto (s : Desk S) (w : S) (t : TaskAt) : Desk S :=
  { s with worker := Function.update s.worker w t }

def put (s : Desk S) (j : JobId) (st : StoredAt S) : Desk S :=
  { s with stored := Function.update s.stored j (some st) }

def move (s : Desk S) (source target : StatsSlot S) : Desk S :=
  { s with stats := s.stats.transition source target }

/-- `stats.queued(chain)` -/
def queuedCount (s : Desk S) : Nat := s.stats.count (none,.queued)

/-- The submit handler answers 503 `queue_full`. -/
def queueFull (c : DeskConfig) (s : Desk S) : Bool := c.maxDepth ≤ s.queuedCount

def submit (c : DeskConfig) (s : Desk S) (j : JobId) : Desk S :=
  if s.queueFull c then s else { s.put j .queued with offers := j :: s.offers }

def admitJob (s : Desk S) (j : JobId) : Desk S :=
  { s with
    offers := s.offers.erase j
    queue := s.queue.admitJob j
    counting := if s.queue.admits j = .queued then j :: s.counting else s.counting }

def pop (s : Desk S) (w : S) : Desk S :=
  match s.queue.tryPop with
  | (some j,queue) => { s.goto w (.popped j) with queue := queue }
  | (none,_) => s

/-- The step of a worker that holds `j`. -/
def workerStep (c : DeskConfig) (s : Desk S) (w : S) (e : DeskEvent S) : Desk S :=
  match s.worker w,e with
  | .popped j,.putBack _ => { s.goto w .idle with queue := s.queue.pushFront j }
  | .popped j,.start _ =>
    (s.goto w (.processing j)).move (none,.queued) (some w,.processing)
  | .processing j,.fail _ =>
    if s.stored j = some .queued then (s.put j (.ended none .failed)).goto w (.ending j .failed)
    else s.goto w (.ending j .dropped)
  | .processing j,.retry _ => s.goto w (.ending j (.requeue false))
  | .processing j,.send _ => (s.goto w (.sending j)).move (some w,.processing) (some w,.inFlight)
  | .sending j,.bind _ =>
    if s.stored j = some .queued then (s.put j (.sent w)).goto w (.bound j)
    else (s.goto w (.ending j .dropped)).move (some w,.inFlight) (some w,.processing)
  | .sending j,.notBound _ =>
    (s.goto w (.ending j (.requeue false))).move (some w,.inFlight) (some w,.processing)
  | .bound j,.void _ true => (s.put j .queued).goto w (.ending j (.requeue true))
  | .bound j,.void _ false =>
    (s.put j (.ended (some w) .failed)).goto w (.ending j .failedAfterBind)
  | .bound j,.mined _ .cancel _ =>
    if c.immediate then (s.goto w (.forgetting j)).move (some w,.inFlight) (some w,.failed)
    else { s.goto w .idle with left := ⟨j,w,false⟩ :: s.left }
  | .bound j,.mined _ _ outcome =>
    let s := s.move (some w,.inFlight) (some w,.included)
    if c.immediate then
      (s.goto w (.forgetting j)).move (some w,.included) (some w,outcome.terminalBucket)
    else { s.goto w .idle with left := ⟨j,w,true⟩ :: s.left }
  | .bound j,.leave _ => { s.goto w .idle with left := ⟨j,w,false⟩ :: s.left }
  | .ending j .failed,.finish _ =>
    (s.goto w (.forgetting j)).move (some w,.processing) (some w,.failed)
  | .ending j .failedAfterBind,.finish _ =>
    (s.goto w (.forgetting j)).move (some w,.inFlight) (some w,.failed)
  | .ending j (.requeue afterBind),.finish _ =>
    (s.goto w (.pushing j)).move (some w,if afterBind then .inFlight else .processing)
      (none,.queued)
  -- Someone else already owns this job; it is counted elsewhere.
  | .ending j .dropped,.finish _ =>
    (s.goto w (.forgetting j)).move (some w,.processing) (none,.queued)
  | .forgetting j,.release _ => { s.goto w .idle with queue := s.queue.forget j }
  | .pushing j,.release _ => { s.goto w .idle with queue := s.queue.pushFront j }
  | _,_ => s

/-- Out of memory first, so no worker can pick it up between the two steps. -/
def cancel (s : Desk S) (j : JobId) : Desk S :=
  { s with
    queue := s.queue.remove j
    cancels := (j,.removed (s.queue.isWaiting j)) :: s.cancels }

def cancelStore (s : Desk S) (j : JobId) (waiting : Bool) : Desk S :=
  let cancels := s.cancels.erase (j,.removed waiting)
  if s.stored j = some .queued then
    { s.put j (.ended none .failed) with cancels := (j,.committed waiting) :: cancels }
  else { s with cancels := cancels }

def cancelCount (s : Desk S) (j : JobId) (waiting : Bool) : Desk S :=
  { s with
    cancels := s.cancels.erase (j,.committed waiting)
    stats :=
      if waiting then s.stats.transition (none,.queued) (none,.failed)
      else s.stats.add (none,.failed) }

def accountMoved (s : Desk S) (job : LeftJob S) : Desk S :=
  let (source,target) := if job.included then (Bucket.included,Bucket.inFlight)
    else (.inFlight,.included)
  { s.move (some job.signer,source) (some job.signer,target) with
    left := { job with included := !job.included } :: s.left.erase job }

def accountEnded (s : Desk S) (job : LeftJob S) (outcome : Outcome) : Desk S :=
  let (source,target) := if job.included then (Bucket.included,outcome.terminalBucket)
    else (.inFlight,.failed)
  { s.move (some job.signer,source) (some job.signer,target) with
    left := s.left.erase job
    queue := s.queue.forget job.id }

def step (c : DeskConfig) (s : Desk S) (e : DeskEvent S) : Desk S :=
  match e with
  | .submit j => s.submit c j
  | .sweep page => { s with offers := page ++ s.offers }
  | .resetOverflow => { s with queue := s.queue.resetOverflow }
  | .admitJob j => s.admitJob j
  | .count j =>
    { s with counting := s.counting.erase j, stats := s.stats.add (none,.queued) }
  | .pop w => s.pop w
  | .cancel j => s.cancel j
  | .cancelStore j waiting => s.cancelStore j waiting
  | .cancelLost j waiting => { s with cancels := s.cancels.erase (j,.removed waiting) }
  | .cancelCount j waiting => s.cancelCount j waiting
  | .settle j st => s.put j st
  | .accountMoved job => s.accountMoved job
  | .accountEnded job outcome => s.accountEnded job outcome
  | .putBack w | .start w | .fail w | .retry w | .send w | .bind w | .notBound w | .void w _
  | .mined w _ _ | .leave w | .finish w | .release w => s.workerStep c w e

/-- When a step can be taken. A submitted id is new, a page has queued rows, and only a bound
job is settled. -/
def Allowed (s : Desk S) : DeskEvent S → Prop
  | .submit j => s.stored j = none
  | .sweep page => page.length ≤ s.queue.window ∧ ∀ j ∈ page, s.stored j = some .queued
  | .admitJob j => j ∈ s.offers
  | .count j => j ∈ s.counting
  | .pop w => s.worker w = .idle ∧ s.queue.jobs ≠ []
  | .cancelStore j waiting | .cancelLost j waiting => (j,.removed waiting) ∈ s.cancels
  | .cancelCount j waiting => (j,.committed waiting) ∈ s.cancels
  | .settle j st => st ≠ .queued ∧ s.stored j ≠ none ∧ s.stored j ≠ some .queued
  | .accountMoved job => job ∈ s.left
  | .accountEnded job _ => job ∈ s.left
  | .mined _ purpose _ => purpose ≠ .topup
  | _ => True

def machine (c : DeskConfig) : Machine (Desk S) (DeskEvent S) where
  allowed := Allowed
  step := step c

instance Allowed.decidable (s : Desk S) : (e : DeskEvent S) → Decidable (s.Allowed e)
  | .submit j => inferInstanceAs (Decidable (s.stored j = none))
  | .sweep page => inferInstanceAs (Decidable
      (page.length ≤ s.queue.window ∧ ∀ j ∈ page, s.stored j = some .queued))
  | .admitJob j => inferInstanceAs (Decidable (j ∈ s.offers))
  | .count j => inferInstanceAs (Decidable (j ∈ s.counting))
  | .pop w => inferInstanceAs (Decidable (s.worker w = .idle ∧ s.queue.jobs ≠ []))
  | .cancelStore j waiting | .cancelLost j waiting =>
    inferInstanceAs (Decidable ((j,CancelAt.removed waiting) ∈ s.cancels))
  | .cancelCount j waiting =>
    inferInstanceAs (Decidable ((j,CancelAt.committed waiting) ∈ s.cancels))
  | .settle j st => inferInstanceAs (Decidable
      (st ≠ .queued ∧ s.stored j ≠ none ∧ s.stored j ≠ some .queued))
  | .accountMoved job | .accountEnded job _ => inferInstanceAs (Decidable (job ∈ s.left))
  | .mined _ purpose _ => inferInstanceAs (Decidable (purpose ≠ .topup))
  | .resetOverflow | .putBack _ | .start _ | .fail _ | .retry _ | .send _ | .bind _ | .notBound _
  | .void _ _ | .leave _ | .finish _ | .release _ | .cancel _ => inferInstanceAs (Decidable True)

instance machine.decidable (c : DeskConfig) (s : Desk S) (e : DeskEvent S) :
    Decidable ((machine c).allowed s e) :=
  inferInstanceAs (Decidable (s.Allowed e))

end Desk

end GumEngine
