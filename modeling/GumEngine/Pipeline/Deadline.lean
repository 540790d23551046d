import GumEngine.Funds.Reservation
import GumEngine.Queue.Desk

/-!
# Deadlines

`process` of `pipeline/worker.rs` for one job, over the store and a clock that only moves
forward. Any number of workers may handle the job. A handling is a chain of awaits: every
answer comes when it comes, and other tasks write to the store in between.
-/

namespace GumEngine
open Relational Transition

/-- What `process` reads of the job it was handed. -/
structure QueuedJob where
  id : JobId
  request : JobRequest
deriving DecidableEq, Repr

structure ProcessConfig where
  kind : AdapterKind
  estimateMultiplierBps : Nat
  maxTxGas : Nat
  maxJobCost : Nat
  maxRequeues : Nat

/-- Where a worker is in `process`. -/
inductive ProcessAt
  | estimating
  | quoting (gasLimit : Nat)
  /-- Inside `ensure_funds`; after an estimate that lacked funds nothing is sent. -/
  | funding (cost : Nat) (send : Option (Nat × FeeQuote))
  | returning (reason : String)
  | failing (failure : JobFailure) (message : String) (revertData : Option Bytes)
  | signing (gasLimit : Nat) (fees : FeeQuote)
  | binding (a : Attempt) (left : Nat)
  | calling (a : Attempt) (left issued : Nat)
  | resolving
deriving DecidableEq

/-- The answers to `eth_estimateGas` that `process` tells apart. -/
inductive Estimate
  | gas (g : Nat)
  | lacksFunds
  | refused (message : String) (revertData : Option Bytes)
  | unavailable

/-- What a worker waits for. -/
inductive ProcessAnswer
  | estimated (e : Estimate)
  | quoted (fees : Option FeeQuote) (ctx : CostContext)
  /-- The balance covers the cost, or a top-up has arrived. -/
  | funded
  | unfunded (reason : String)
  | requeued (call : Call)
  | failed (call : Call)
  | signed (signature : Except SignerError Signature) (nonce : Nat)
  /-- `bind_attempt` is called. -/
  | issued
  | bound (epoch : Int) (r : Round)
  | resolved (d : Option Disposition)

/-- The handling goes on, or `process` returns; none is a job that is mined or stays in flight. -/
inductive Onward
  | goes (p : ProcessAt)
  | ends (d : Option Disposition)

def Onward.requeue : Onward := .ends (some (.requeue false))

/-- `fail_unbound` of a job that is too late. -/
def expiring : ProcessAt := .failing .expired "deadline passed before the job could be sent" none

section Process

variable (c : ProcessConfig) (p : PairKey) (job : QueuedJob) (now : Nat) (s : Store)

/-- The start of `process`: the only place where the deadline is read. -/
def process : ProcessAt :=
  if job.request.deadline.any (· ≤ now) then expiring
  else
    match job.request.gasLimit with
    | some g => .quoting g
    | none => .estimating

def onEstimate : Estimate → Onward
  | .gas g => .goes (.quoting (min (Saturating.mul 64 g c.estimateMultiplierBps/10000) c.maxTxGas))
  | .lacksFunds => .goes (.funding job.request.value none)
  | .refused message revertData =>
    .goes (.failing .simulationReverted ("gas estimation failed: "++message) revertData)
  | .unavailable => .requeue

/-- `TxDriver::cost_of` -/
def QueuedJob.cost (gasLimit : Nat) (fees : FeeQuote) (ctx : CostContext) : Nat :=
  c.kind.worstCaseCost
    ⟨gasLimit,job.request.value,estimateEncodedLen job.request.data.length⟩ fees ctx

def onQuote (gasLimit : Nat) (fees : Option FeeQuote) (ctx : CostContext) : Onward :=
  match fees with
  | none => .requeue
  | some fees =>
    let cost := job.cost c gasLimit fees ctx
    if cost > c.maxJobCost then
      .goes (.failing .invalidTx ("worst-case cost "++toString cost++
        " wei exceeds max_job_cost "++toString c.maxJobCost) none)
    else .goes (.funding cost (some (gasLimit,fees)))

/-- `requeue_front`, after the treasury could not help. -/
def onReturn (reason : String) : Call → Onward × Store
  | .answered =>
    match requeueFront s job.id now with
    | .ok (count,s') =>
      if count > c.maxRequeues then
        (.goes (.failing .internal ("returned to the queue "++toString count++
          " times for lack of funds: "++reason) none),s')
      else (.requeue,s')
    | .error _ => (.requeue,s)
  | .lost _ => (.requeue,s.commit ((requeueFront s job.id now).map (·.2)))
  | .refused _ => (.requeue,s)

def failUnbound (failure : JobFailure) (message : String) (revertData : Option Bytes) :
    Call → Onward × Store
  | .answered =>
    let (written,s') := failJob s job.id [.queued] failure message revertData
    (.ends (some (if written then .failed else .dropped)),s')
  | .lost _ => (.requeue,(failJob s job.id [.queued] failure message revertData).2)
  | .refused _ => (.requeue,s)

def onSignature (gasLimit : Nat) (fees : FeeQuote) (nonce : Nat) :
    Except SignerError Signature → Onward
  | .error _ => .requeue
  | .ok g => .goes (.binding (sign p (.job job.id) nonce .job { g with
      gasLimit := gasLimit
      maxFeePerGas := fees.maxFeePerGas
      maxPriorityFeePerGas := fees.maxPriorityFeePerGas
      value := job.request.value }) 5)

/-- A bind that is not retried; a lost lease aborts. -/
def onBindError : StoreError → Onward
  | .fenced _ => .ends none
  | .stateConflict _ _ _ => .ends (some .dropped)
  | _ => .requeue

/-- One round of the bind loop; `left` rounds follow it. -/
def onRound (a : Attempt) (left : Nat) (epoch : Int) (r : Round) : Onward × Store :=
  match r.run s epoch a .first with
  | (.bound,s') => (.goes .resolving,s')
  | (.failed e,s') => (onBindError e,s')
  | (.retry _,s') => (if left = 0 then .requeue else .goes (.binding a (left-1)),s')

/-- What an answer does to a handling and to the store. -/
def onward : ProcessAt → ProcessAnswer → Onward × Store
  | .estimating,.estimated e => (onEstimate c job e,s)
  | .quoting gasLimit,.quoted fees ctx => (onQuote c job gasLimit fees ctx,s)
  | .funding _ none,.funded => (.requeue,s)
  | .funding _ (some (gasLimit,fees)),.funded => (.goes (.signing gasLimit fees),s)
  | .funding _ _,.unfunded reason => (.goes (.returning reason),s)
  | .returning reason,.requeued call => onReturn c job now s reason call
  | .failing failure message revertData,.failed call =>
    failUnbound job s failure message revertData call
  | .signing gasLimit fees,.signed g nonce => (onSignature p job gasLimit fees nonce g,s)
  | .binding a left,.issued => (.goes (.calling a left now),s)
  | .calling a left _,.bound epoch r => onRound s a left epoch r
  | .resolving,.resolved d => (.ends d,s)
  | stage,_ => (.goes stage,s)

end Process

/-- A call of `process`. -/
structure Handling where
  began : Nat
  stage : ProcessAt
deriving DecidableEq

/-- A first bind of the job that committed. -/
structure BoundAt where
  issued : Nat
  committed : Nat
deriving DecidableEq, Repr

/-- A call of `process` that has returned, and the job's row around its last answer. -/
structure Ending where
  began : Nat
  before : Option JobRow
  after : Option JobRow
deriving DecidableEq, Repr

def Store.job (s : Store) (id : JobId) : Option JobRow := s.jobs.rows.find? fun j => j.id = id

/-- The workers that handle the job, and what has come of it. -/
structure JobRun (S : Type) where
  now : Nat
  store : Store
  worker : S → Option Handling
  binds : List BoundAt
  ended : List Ending

inductive JobEvent (S : Type)
  | tick (n : Nat)
  | other (op : Op)
  | handle (w : S)
  | answer (w : S) (x : ProcessAnswer)

namespace JobRun

variable {S : Type} [DecidableEq S]

def start (now : Nat) (store : Store) : JobRun S := ⟨now,store,fun _ => none,[],[]⟩

variable (c : ProcessConfig) (pair : S → PairKey) (job : QueuedJob)

/-- The first bind that `x` commits. -/
def commits (s : JobRun S) : ProcessAt → ProcessAnswer → List BoundAt
  | .calling a _ issued,.bound epoch r =>
    if r.call.commits s.store epoch a .first then [⟨issued,s.now⟩] else []
  | _,_ => []

def answer (s : JobRun S) (w : S) (h : Handling) (x : ProcessAnswer) : JobRun S :=
  let binds := s.binds++s.commits h.stage x
  match onward c (pair w) job s.now s.store h.stage x with
  | (.goes stage,store) =>
    { s with
      store := store
      worker := Function.update s.worker w (some ⟨h.began,stage⟩)
      binds := binds }
  | (.ends _,store) =>
    { s with
      store := store
      worker := Function.update s.worker w none
      binds := binds
      ended := s.ended++[⟨h.began,s.store.job job.id,store.job job.id⟩] }

def step (s : JobRun S) : JobEvent S → JobRun S
  | .tick n => { s with now := s.now+n }
  | .other op => { s with store := op.apply s.store }
  | .handle w =>
    { s with worker := Function.update s.worker w (some ⟨s.now,process job s.now⟩) }
  | .answer w x =>
    match s.worker w with
    | none => s
    | some h => s.answer c pair job w h x

/-- The transaction binds the job for the first time. -/
def Binds (id : JobId) : Op → Bool
  | .bindAttempt _ a .first => a.owner = .job id
  | _ => false

/-- A worker takes the job when it has none. Only `process` binds a job for the first time. -/
def Allowed (s : JobRun S) : JobEvent S → Prop
  | .handle w => s.worker w = none
  | .other op => Binds job.id op = false
  | .tick _ | .answer _ _ => True

instance (s : JobRun S) : ∀ e, Decidable (s.Allowed job e)
  | .handle _ | .other _ => inferInstanceAs (Decidable (_ = _))
  | .tick _ | .answer _ _ => inferInstanceAs (Decidable True)

def machine : Machine (JobRun S) (JobEvent S) := ⟨Allowed job,step c pair job⟩

instance (s : JobRun S) (e : JobEvent S) : Decidable ((machine c pair job).allowed s e) :=
  inferInstanceAs (Decidable (s.Allowed job e))

end JobRun

/-- Past the check and still on the way to a bind, or in one. -/
def ProcessAt.preparing : ProcessAt → Bool
  | estimating | quoting _ | funding _ (some _) | signing _ _ | binding _ _ | calling _ _ _ => true
  | funding _ none | returning _ | failing _ _ _ | resolving => false

/-- The database takes the write, whether or not the answer arrives. -/
def Call.writes : Call → Bool
  | .answered | .lost _ => true
  | .refused _ => false

namespace JobRun

variable {S : Type} [DecidableEq S] (d : Nat)

/-- The clock does not reach the deadline while a worker that passed the check is still preparing
or binding, and the store takes the write that fails an expired job. -/
def InTime (s : JobRun S) : JobEvent S → Prop
  | .tick n => ∀ w, ∀ h ∈ s.worker w, h.stage.preparing = true → s.now+n < d
  | .answer w (.failed call) => (∀ h ∈ s.worker w, h.stage = expiring → call.writes = true)
  | _ => True

instance [Fintype S] (s : JobRun S) : ∀ e, Decidable (s.InTime d e)
  | .tick _ => inferInstanceAs (Decidable (∀ w, ∀ h ∈ s.worker w, _ → _))
  | .answer w (.failed _) => inferInstanceAs (Decidable (∀ h ∈ s.worker w, _ → _))
  | .answer _ (.estimated _) | .answer _ (.quoted _ _) | .answer _ .funded
  | .answer _ (.unfunded _) | .answer _ (.requeued _) | .answer _ (.signed _ _)
  | .answer _ .issued | .answer _ (.bound _ _) | .answer _ (.resolved _) | .other _ | .handle _ =>
    inferInstanceAs (Decidable True)

/-- The deadline is honoured: every first bind was issued and committed before it; a worker that
handles the job from then on is failing it, and has failed it if it was still queued; nothing is
bound after that. -/
structure Honoured (s : JobRun S) : Prop where
  bound : ∀ b ∈ s.binds, b.issued < d ∧ b.committed < d
  failing : ∀ w, ∀ h ∈ s.worker w, d ≤ h.began → h.stage = expiring
  expired : ∀ e ∈ s.ended, d ≤ e.began → ∀ j ∈ e.before, j.status = .queued →
    ∃ j' ∈ e.after, j'.status = .failed ∧ j'.errorCode = some .expired
  never : ∀ e ∈ s.ended, d ≤ e.began → ∀ b ∈ s.binds, b.committed < e.began

end JobRun

section Steps

variable {c : ProcessConfig} {p : PairKey} {job : QueuedJob} {now d : Nat} {s : Store}
  {stage stage' : ProcessAt} {x : ProcessAnswer} {a : Attempt} {left t : Nat}

theorem onEstimate_not_calling (e : Estimate) : onEstimate c job e ≠ .goes (.calling a left t) := by
  cases e <;> simp [onEstimate,Onward.requeue]

theorem onQuote_not_calling (gasLimit : Nat) (fees : Option FeeQuote) (ctx : CostContext) :
    onQuote c job gasLimit fees ctx ≠ .goes (.calling a left t) := by
  cases fees with
  | none => simp [onQuote,Onward.requeue]
  | some fees =>
    unfold onQuote
    dsimp only
    split <;> simp

/-- A job that is returned is no longer on its way. -/
theorem onReturn_goes {reason : String} {call : Call}
    (h : (onReturn c job now s reason call).1 = .goes stage') : stage'.preparing = false := by
  cases call with
  | answered =>
    unfold onReturn at h
    dsimp only at h
    split at h
    · split at h
      · cases h
        rfl
      · cases h
    · cases h
  | lost e => cases h
  | refused e => cases h

theorem failUnbound_ends (job : QueuedJob) (s : Store) (failure : JobFailure) (message : String)
    (revertData : Option Bytes) (call : Call) :
    ∃ d, (failUnbound job s failure message revertData call).1 = .ends d := by
  cases call with
  | answered => exact ⟨_,rfl⟩
  | lost e => exact ⟨_,rfl⟩
  | refused e => exact ⟨_,rfl⟩

theorem onSignature_not_calling (gasLimit : Nat) (fees : FeeQuote) (nonce : Nat)
    (g : Except SignerError Signature) :
    onSignature p job gasLimit fees nonce g ≠ .goes (.calling a left t) := by
  cases g <;> simp [onSignature,Onward.requeue]

theorem onBindError_ends (e : StoreError) : ∃ d, onBindError e = .ends d := by
  unfold onBindError
  split
  · exact ⟨_,rfl⟩
  · exact ⟨_,rfl⟩
  · exact ⟨_,rfl⟩

/-- A round is followed by another bind at most. -/
theorem onRound_goes {epoch : Int} {r : Round}
    (h : (onRound s a left epoch r).1 = .goes stage') :
    stage' = .resolving ∨ stage' = .binding a (left-1) := by
  unfold onRound at h
  split at h
  · cases h
    exact .inl rfl
  next e _ _ =>
    obtain ⟨d,hd⟩ := onBindError_ends e
    rw [hd] at h
    cases h
  · split at h
    · cases h
    · cases h
      exact .inr rfl

/-- A call in progress was in progress before the answer, or is issued now. -/
theorem onward_calling (h : (onward c p job now s stage x).1 = .goes (.calling a left t)) :
    stage = .calling a left t ∨ t = now := by
  unfold onward at h
  split at h
  · exact absurd h (onEstimate_not_calling _)
  · exact absurd h (onQuote_not_calling _ _ _)
  · cases h
  · cases h
  · cases h
  · cases onReturn_goes h
  · obtain ⟨d,hd⟩ := failUnbound_ends _ _ _ _ _ _
    rw [hd] at h
    cases h
  · exact absurd h (onSignature_not_calling _ _ _ _)
  · cases h
    exact .inr rfl
  · obtain h' | h' := onRound_goes h
    · cases h'
    · cases h'
  · cases h
  · cases h
    exact .inl rfl

/-- Whoever is on the way to a bind was so before the answer. -/
theorem onward_preparing (h : (onward c p job now s stage x).1 = .goes stage')
    (hp : stage'.preparing = true) : stage.preparing = true := by
  unfold onward at h
  split at h
  · rfl
  · rfl
  · cases h
  · rfl
  · cases h
    cases hp
  · rw [onReturn_goes h] at hp
    cases hp
  · obtain ⟨d,hd⟩ := failUnbound_ends _ _ _ _ _ _
    rw [hd] at h
    cases h
  · rfl
  · rfl
  · rfl
  · cases h
  · cases h
    exact hp

/-- A worker that fails the job does so, whatever else is answered. -/
theorem onward_failing (c : ProcessConfig) (p : PairKey) (job : QueuedJob) (now : Nat) (s : Store)
    (failure : JobFailure) (message : String) (revertData : Option Bytes) (x : ProcessAnswer) :
    onward c p job now s (.failing failure message revertData) x =
        (.goes (.failing failure message revertData),s) ∨
      ∃ call, x = .failed call ∧ onward c p job now s (.failing failure message revertData) x =
        failUnbound job s failure message revertData call := by
  cases x with
  | failed call => exact .inr ⟨call,rfl,rfl⟩
  | _ => exact .inl rfl

theorem onward_expiring (c : ProcessConfig) (p : PairKey) (job : QueuedJob) (now : Nat) (s : Store)
    (x : ProcessAnswer) :
    onward c p job now s expiring x = (.goes expiring,s) ∨ ∃ call, x = .failed call ∧
      onward c p job now s expiring x =
        failUnbound job s .expired "deadline passed before the job could be sent" none call :=
  onward_failing c p job now s .expired _ none x

theorem job_failJob (s : Store) (id : JobId) (failure : JobFailure) (message : String)
    (revertData : Option Bytes) :
    (failJob s id [.queued] failure message revertData).2.job id =
      (s.job id).map (rewrite (JobRow.whereIn id [.queued]) fun j =>
        { j.toFailed failure message with revertData := revertData }) := by
  unfold Store.job
  rw [(failJob_spec (s := s) id failure message revertData (by decide)).2,List.find?_map]
  congr 2
  funext j
  -- the update keeps the id that rows are found by
  show decide ((rewrite _ _ j).id = id) = decide (j.id = id)
  unfold rewrite
  split <;> rfl

/-- A write that is taken fails the job if it is queued. -/
theorem failUnbound_fails {failure : JobFailure} {message : String} {revertData : Option Bytes}
    {call : Call} (hcall : call.writes = true) {j : JobRow} (hj : s.job job.id = some j)
    (hq : j.status = .queued) :
    ∃ j' ∈ (failUnbound job s failure message revertData call).2.job job.id,
      j'.status = .failed ∧ j'.errorCode = some failure := by
  have hid : j.id = job.id := by
    unfold Store.job at hj
    simpa using List.find?_some hj
  have hstore : (failUnbound job s failure message revertData call).2 =
      (failJob s job.id [.queued] failure message revertData).2 := by
    cases call with
    | answered => rfl
    | lost e => rfl
    | refused e => cases hcall
  have hp : JobRow.whereIn job.id [.queued] j = true := by simp [JobRow.whereIn,hid,hq]
  rw [hstore,job_failJob,hj,Option.map_some,rewrite_of hp]
  exact ⟨_,rfl,rfl,rfl⟩

/-- A first bind of a queued job commits when lease, nonce and bytes are free. -/
theorem bindAttempt_first_isOk {id : JobId} (ho : a.owner = .job id)
    (hslot : ∀ r ∈ s.nonceSlots.rows, r.slot ≠ a.slot)
    (hfresh : ∀ r ∈ s.txAttempts.rows, ¬ r.clash (.ofAttempt a))
    (hjob : ∃ j ∈ s.jobs.rows, j.id = id ∧ j.status = .queued) :
    ∃ s', bindAttempt s s.leaseEpoch a .first = .ok s' := by
  obtain ⟨j,hmem,hid,hq⟩ := hjob
  have hclaim : ∃ slots, claimSlot s a .first = some slots :=
    ⟨_,dif_pos hslot⟩
  have hinsert : ∃ attempts, s.txAttempts.insert (.ofAttempt a) = some attempts :=
    ⟨_,dif_pos hfresh⟩
  have hexists : s.ownerExists a.owner = true := by
    rw [ho]
    exact List.any_eq_true.2 ⟨j,hmem,decide_eq_true hid⟩
  have hmove : ∃ m, moveOwner s a .first = some m := by
    have hne : s.jobs.updateReturning (JobRow.whereIn id [.queued]) (JobRow.toSent a)
        (fun _ => rfl) ≠ none := by
      intro hnone
      exact Table.updateReturning_eq_none.mp hnone j hmem (by simp [JobRow.whereIn,hid,hq])
    obtain ⟨r,hr⟩ := Option.ne_none_iff_exists'.1 hne
    exact ⟨_,by simp only [moveOwner,ho]; rw [hr]; rfl⟩
  obtain ⟨slots,hslots⟩ := hclaim
  obtain ⟨attempts,hattempts⟩ := hinsert
  obtain ⟨m,hm⟩ := hmove
  simp [bindAttempt,hslots,hattempts,hexists,hm]

theorem exists_fresh {α : Type} (rows : List α) (f g : α → Nat) :
    ∃ n, ∀ r ∈ rows, f r ≠ n ∧ g r ≠ n := by
  obtain ⟨n,hn⟩ := Infinite.exists_notMem_finset ((rows.map f ++ rows.map g).toFinset)
  refine ⟨n,fun r hr => ⟨?_,?_⟩⟩
  · rintro rfl
    exact hn (by simp; exact .inl ⟨r,hr,rfl⟩)
  · rintro rfl
    exact hn (by simp; exact .inr ⟨r,hr,rfl⟩)

end Steps

namespace JobRun

variable {S : Type} {c : ProcessConfig} {pair : S → PairKey} {job : QueuedJob} {d : Nat}
  {s : JobRun S}

/-- A worker on its way to a bind is in time, and one that began too late is failing the job. -/
structure Punctual (d now : Nat) (h : Handling) : Prop where
  early : h.stage.preparing = true → now < d
  late : d ≤ h.began → h.stage = expiring
  issued : ∀ a left t, h.stage = .calling a left t → t < d

structure OnTrack (d : Nat) (s : JobRun S) : Prop where
  worker : ∀ w, ∀ h ∈ s.worker w, Punctual d s.now h
  bound : ∀ b ∈ s.binds, b.issued < d ∧ b.committed < d
  expired : ∀ e ∈ s.ended, d ≤ e.began → ∀ j ∈ e.before, j.status = .queued →
    ∃ j' ∈ e.after, j'.status = .failed ∧ j'.errorCode = some .expired

theorem OnTrack.honoured (h : OnTrack d s) : Honoured d s where
  bound := h.bound
  failing := fun w g hg => (h.worker w g hg).late
  expired := h.expired
  never := fun _ _ hle b hb => lt_of_lt_of_le (h.bound b hb).2 hle

theorem onTrack_start (d now : Nat) (store : Store) :
    OnTrack d (start now store : JobRun S) where
  worker := fun _ _ h => nomatch h
  bound := fun _ h => absurd h List.not_mem_nil
  expired := fun _ h => absurd h List.not_mem_nil

theorem process_punctual (hd : job.request.deadline = some d) (now : Nat) :
    Punctual d now ⟨now,process job now⟩ := by
  by_cases hle : d ≤ now
  · have hproc : process job now = expiring := by simp [process,hd,hle]
    rw [hproc]
    exact ⟨nofun,fun _ => rfl,nofun⟩
  · refine ⟨fun _ => lt_of_not_ge hle,fun h => absurd h hle,fun a left t h => ?_⟩
    have hproc : process job now ≠ .calling a left t := by
      simp only [process,hd,Option.any_some,hle,decide_false,Bool.false_eq_true,if_false]
      cases job.request.gasLimit with
      | none => simp
      | some g => simp
    exact absurd h hproc

/-- What is committed was issued by a worker that is in time. -/
theorem OnTrack.commits (h : OnTrack d s) {w : S} {g : Handling} (hg : g ∈ s.worker w)
    (x : ProcessAnswer) :
    ∀ b ∈ s.binds++s.commits g.stage x, b.issued < d ∧ b.committed < d := by
  intro b hb
  obtain hb | hb := List.mem_append.1 hb
  · exact h.bound b hb
  · have hp := h.worker w g hg
    unfold JobRun.commits at hb
    split at hb
    next a left issued epoch r hstage _ =>
      split at hb
      · obtain rfl := List.mem_singleton.1 hb
        exact ⟨hp.issued a left issued hstage,hp.early (by rw [hstage]; rfl)⟩
      · exact absurd hb List.not_mem_nil
    · exact absurd hb List.not_mem_nil

variable [DecidableEq S]

/-- One worker changes, and it is punctual. -/
theorem OnTrack.update (h : OnTrack d s) {w : S} {o : Option Handling}
    (ho : ∀ g ∈ o, Punctual d s.now g) :
    ∀ v, ∀ g ∈ Function.update s.worker w o v, Punctual d s.now g := by
  intro v g hg
  by_cases hv : v = w
  · subst hv
    rw [Function.update_self] at hg
    exact ho g hg
  · rw [Function.update_of_ne hv] at hg
    exact h.worker v g hg

theorem Punctual.goes {now : Nat} {h : Handling} {p : PairKey} {store : Store} {x : ProcessAnswer}
    {stage : ProcessAt} (hp : Punctual d now h)
    (hgo : (onward c p job now store h.stage x).1 = .goes stage) :
    Punctual d now ⟨h.began,stage⟩ where
  early := fun hprep => hp.early (onward_preparing hgo hprep)
  late := by
    intro hle
    rw [hp.late hle] at hgo
    obtain heq | ⟨call,-,heq⟩ := onward_expiring c p job now store x
    · rw [heq] at hgo
      cases hgo
      rfl
    · obtain ⟨dis,hdis⟩ := failUnbound_ends job store .expired
        "deadline passed before the job could be sent" none call
      rw [heq,hdis] at hgo
      cases hgo
  issued := by
    rintro a left t ⟨⟩
    obtain hold | rfl := onward_calling hgo
    · exact hp.issued a left t hold
    · exact hp.early (onward_preparing hgo rfl)

theorem OnTrack.answer (h : OnTrack d s) {w : S} {g : Handling} (hg : g ∈ s.worker w)
    {x : ProcessAnswer} (hc : s.InTime d (.answer w x)) : OnTrack d (s.answer c pair job w g x) := by
  have hp := h.worker w g hg
  have hbinds := h.commits hg x
  unfold JobRun.answer
  dsimp only
  split
  next stage store heq =>
    have hgo : (onward c (pair w) job s.now s.store g.stage x).1 = .goes stage := by rw [heq]
    refine ⟨h.update fun g' hg' => ?_,hbinds,h.expired⟩
    obtain rfl := Option.some.inj hg'
    exact hp.goes hgo
  next dis store heq =>
    refine ⟨h.update nofun,hbinds,fun e he hle j hj hq => ?_⟩
    obtain he | he := List.mem_append.1 he
    · exact h.expired e he hle j hj hq
    · obtain rfl := List.mem_singleton.1 he
      -- a handling that began too late ends with the write that fails the job
      have hstage := hp.late hle
      rw [hstage] at heq
      obtain heq' | ⟨call,rfl,heq'⟩ := onward_expiring c (pair w) job s.now s.store x
      · rw [heq'] at heq
        cases heq
      · have hstore : store = (failUnbound job s.store .expired
            "deadline passed before the job could be sent" none call).2 := by
          rw [← heq',heq]
        rw [hstore]
        exact failUnbound_fails (hc g hg hstage) hj hq

theorem OnTrack.step (hd : job.request.deadline = some d) (h : OnTrack d s) {e : JobEvent S}
    (hc : s.InTime d e) : OnTrack d (s.step c pair job e) := by
  cases e with
  | tick n =>
    refine ⟨fun w g hg => ?_,h.bound,h.expired⟩
    have hp := h.worker w g hg
    exact ⟨hc w g hg,hp.late,hp.issued⟩
  | other op => exact ⟨h.worker,h.bound,h.expired⟩
  | handle w =>
    refine ⟨h.update fun g hg => ?_,h.bound,h.expired⟩
    obtain rfl := Option.some.inj hg
    exact process_punctual hd s.now
  | answer w x =>
    show OnTrack d (match s.worker w with
      | none => s
      | some g => s.answer c pair job w g x)
    cases hw : s.worker w with
    | none => exact h
    | some g => exact h.answer hw hc

/-- The deadline has passed while a worker that passed the check waits for funds or for its
signature, and the job is still queued. -/
structure Overdue (job : QueuedJob) (d : Nat) (s : JobRun S) (w : S) : Prop where
  passed : d ≤ s.now
  waiting : ∃ h ∈ s.worker w, (∃ cost send, h.stage = .funding cost (some send)) ∨
    ∃ gasLimit fees, h.stage = .signing gasLimit fees
  queued : ∃ j ∈ s.store.jobs.rows, j.id = job.id ∧ j.status = .queued

/-- Some run from here commits a first bind that is issued now. -/
def BindsNow (c : ProcessConfig) (pair : S → PairKey) (job : QueuedJob) (s : JobRun S) : Prop :=
  ∃ es, (machine c pair job).Runs s es ∧
    ⟨s.now,s.now⟩ ∈ (es.foldl (machine c pair job).step s).binds

theorem step_answer {w : S} {h : Handling} (hw : s.worker w = some h) {x : ProcessAnswer}
    {stage : ProcessAt} {store : Store}
    (hgo : onward c (pair w) job s.now s.store h.stage x = (.goes stage,store)) :
    (machine c pair job).step s (.answer w x) =
      { s with
        store := store
        worker := Function.update s.worker w (some ⟨h.began,stage⟩)
        binds := s.binds++s.commits h.stage x } := by
  simp [machine,JobRun.step,hw,JobRun.answer,hgo]

/-- An answer that only moves the worker on can come first. -/
theorem BindsNow.answer {w : S} {h : Handling} (hw : s.worker w = some h) {x : ProcessAnswer}
    {stage : ProcessAt} {store : Store}
    (hgo : onward c (pair w) job s.now s.store h.stage x = (.goes stage,store))
    (hb : BindsNow c pair job { s with
      store := store
      worker := Function.update s.worker w (some ⟨h.began,stage⟩)
      binds := s.binds++s.commits h.stage x }) : BindsNow c pair job s := by
  obtain ⟨es,hrun,hmem⟩ := hb
  replace hmem : ⟨s.now,s.now⟩ ∈ (es.foldl (machine c pair job).step _).binds := hmem
  rw [← step_answer hw hgo] at hrun hmem
  exact ⟨.answer w x :: es,⟨trivial,hrun⟩,hmem⟩

theorem bindsNow_calling {w : S} {h : Handling} {a : Attempt} {left : Nat} {store : Store}
    (hw : s.worker w = some h) (hstage : h.stage = .calling a left s.now)
    (hok : bindAttempt s.store s.store.leaseEpoch a .first = .ok store) :
    BindsNow c pair job s := by
  refine ⟨[.answer w (.bound s.store.leaseEpoch ⟨.answered,.answered⟩)],⟨trivial,trivial⟩,?_⟩
  have hgo : onward c (pair w) job s.now s.store h.stage
      (.bound s.store.leaseEpoch ⟨.answered,.answered⟩) = (.goes .resolving,store) := by
    simp [hstage,onward,onRound,Round.run,Call.run,Call.answer,hok]
  rw [List.foldl_cons,List.foldl_nil,step_answer hw hgo]
  simp [hstage,JobRun.commits,Call.commits,hok,Except.isOk,Except.toBool]

theorem bindsNow_binding {w : S} {h : Handling} {a : Attempt} {left : Nat} {store : Store}
    (hw : s.worker w = some h) (hstage : h.stage = .binding a left)
    (hok : bindAttempt s.store s.store.leaseEpoch a .first = .ok store) :
    BindsNow c pair job s := by
  refine .answer hw (x := .issued) (by rw [hstage]; rfl) ?_
  exact bindsNow_calling (Function.update_self ..) rfl hok

/-- A signer that answers with fresh bytes for a free nonce leads to a bind. -/
theorem bindsNow_signing {w : S} {h : Handling} {gasLimit : Nat} {fees : FeeQuote}
    (hw : s.worker w = some h) (hstage : h.stage = .signing gasLimit fees)
    (hq : ∃ j ∈ s.store.jobs.rows, j.id = job.id ∧ j.status = .queued) :
    BindsNow c pair job s := by
  obtain ⟨nonce,hnonce⟩ := exists_fresh s.store.nonceSlots.rows (·.slot.nonce) (·.slot.nonce)
  obtain ⟨n,hn⟩ := exists_fresh s.store.txAttempts.rows (·.id) (·.txHash)
  let g : Signature := ⟨n,n,[],0,0,0,0⟩
  let a : Attempt := sign (pair w) (.job job.id) nonce .job { g with
    gasLimit := gasLimit
    maxFeePerGas := fees.maxFeePerGas
    maxPriorityFeePerGas := fees.maxPriorityFeePerGas
    value := job.request.value }
  have hok : ∃ store, bindAttempt s.store s.store.leaseEpoch a .first = .ok store := by
    refine bindAttempt_first_isOk rfl (fun r hr hslot => ?_) (fun r hr hclash => ?_) hq
    · exact (hnonce r hr).1 (by rw [hslot]; rfl)
    · obtain hc | hc | ⟨-,hmined,-⟩ := hclash
      · exact (hn r hr).1 hc
      · exact (hn r hr).2 hc
      · obtain hm | hm := hmined
        · cases hm
        · cases hm
  obtain ⟨store,hok⟩ := hok
  refine .answer hw (x := .signed (.ok g) nonce) (by rw [hstage]; rfl) ?_
  exact bindsNow_binding (Function.update_self ..) rfl hok

/-- Once the deadline has passed for a worker that waits, nothing stops the bind. -/
theorem Overdue.bindsNow {w : S} (h : Overdue job d s w) : BindsNow c pair job s := by
  obtain ⟨g,hw,⟨cost,⟨gasLimit,fees⟩,hstage⟩ | ⟨gasLimit,fees,hstage⟩⟩ := h.waiting
  · refine .answer hw (x := .funded) (by rw [hstage]; rfl) ?_
    exact bindsNow_signing (Function.update_self ..) rfl h.queued
  · exact bindsNow_signing hw hstage h.queued

end JobRun

open JobRun

/-- In every run whose clock does not reach the deadline while a worker that passed the check is
still preparing or binding, and whose store takes the write that fails an expired job, the
deadline is honoured. And from every state in which it has passed for such a worker that waits for
funds or a signature, some run binds the job late. -/
theorem deadline_honoured {S : Type} [DecidableEq S] (c : ProcessConfig) (pair : S → PairKey)
    (job : QueuedJob) (d : Nat) (hd : job.request.deadline = some d) (now : Nat) (store : Store) :
    (∀ s : JobRun S, ((JobRun.machine c pair job).restrict (InTime d)).Reaches (start now store) s →
      s.Honoured d) ∧
    ∀ (s : JobRun S) (w : S), (JobRun.machine c pair job).Reaches (start now store) s →
      Overdue job d s w →
      ∃ s', (JobRun.machine c pair job).Reaches (start now store) s' ∧ ¬ s'.Honoured d := by
  constructor
  · intro s h
    have htrack := h.invariant (I := OnTrack d) (onTrack_start d now store)
      fun _ _ hs he => hs.step hd he.2
    exact htrack.honoured
  · intro s w h hover
    obtain ⟨es,hrun,hmem⟩ := hover.bindsNow (c := c)
    refine ⟨_,h.trans hrun.reaches,fun hbad => ?_⟩
    exact absurd hover.passed (Nat.not_le.2 (hbad.bound _ hmem).1)

/-- A job that must be bound before time 10. -/
def urgentJob : QueuedJob := ⟨1,{ Sample.request with gasLimit := some 21000, deadline := some 10 }⟩

def urgentConfig : ProcessConfig := ⟨.geth,12000,30000000,1000000000,3⟩

/-- The store that has just accepted the job. -/
def urgentStore : Store := (Op.insertJob 1 urgentJob.request).apply Store.empty

/-- The check passes at time 0; the top-up arrives at time 60, and the job is bound then. -/
def lateTopup : List (JobEvent Unit) :=
  [.handle (),.answer () (.quoted (some ⟨10,1⟩) ⟨none⟩),.tick 60,.answer () .funded,
    .answer () (.signed (.ok (Sample.signature 1 71)) 0),.answer () .issued,
    .answer () (.bound 0 ⟨.answered,.answered⟩)]

theorem topup_outlasts_deadline :
    (JobRun.machine urgentConfig (fun _ => Sample.pair) urgentJob).Runs (start 0 urgentStore)
      lateTopup ∧
    (lateTopup.foldl (JobRun.machine urgentConfig (fun _ => Sample.pair) urgentJob).step
      (start 0 urgentStore)).binds = [⟨60,60⟩] ∧
    ¬ (lateTopup.foldl (JobRun.machine urgentConfig (fun _ => Sample.pair) urgentJob).step
      (start 0 urgentStore)).Honoured 10 := by
  have hbinds : (lateTopup.foldl (JobRun.machine urgentConfig (fun _ => Sample.pair) urgentJob).step
      (start 0 urgentStore)).binds = [⟨60,60⟩] := by decide +kernel
  refine ⟨by decide +kernel,hbinds,fun h => ?_⟩
  have hlt := (h.bound ⟨60,60⟩ (by rw [hbinds]; exact List.mem_singleton_self _)).1
  exact absurd hlt (by decide)

/-- A worker takes the job at time 12 and fails it. -/
def lateHandling : List (JobEvent Unit) := [.tick 12,.handle (),.answer () (.failed .answered)]

theorem deadline_honoured_late_handling :
    urgentJob.request.deadline = some 10 ∧
    ((JobRun.machine urgentConfig (fun _ => Sample.pair) urgentJob).restrict (InTime 10)).Runs
      (start 0 urgentStore) lateHandling ∧
    ((lateHandling.foldl (JobRun.machine urgentConfig (fun _ => Sample.pair) urgentJob).step
      (start 0 urgentStore)).ended.map fun e => (e.began,e.after.bind (·.errorCode))) =
        [(12,some .expired)] ∧
    (lateHandling.foldl (JobRun.machine urgentConfig (fun _ => Sample.pair) urgentJob).step
      (start 0 urgentStore)).Honoured 10 := by
  have hrun : ((JobRun.machine urgentConfig (fun _ => Sample.pair) urgentJob).restrict
      (InTime 10)).Runs (start 0 urgentStore) lateHandling := by decide +kernel
  refine ⟨rfl,hrun,by decide +kernel,?_⟩
  exact (deadline_honoured urgentConfig (fun _ => Sample.pair) urgentJob 10 rfl 0 urgentStore).1 _
    hrun.reaches

end GumEngine
