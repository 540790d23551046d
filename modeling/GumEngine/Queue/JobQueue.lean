import GumEngine.Domain

/-!
# The in-memory queue of a chain

`queue.rs`: a window over the durable queue. `known` covers a job from the moment it is
loaded until it is terminal or handed back to the database, which is what keeps a job from
being queued twice. Of a job only its id matters here.
-/

namespace GumEngine

structure JobQueue where
  jobs : List JobId
  known : Finset JobId
  /-- Queued jobs that exist only in the store because the window was full. -/
  overflow : Nat
  window : Nat
deriving DecidableEq

inductive Admit
  | queued | duplicate | deferred
deriving DecidableEq, Repr

namespace JobQueue

def new (window : Nat) : JobQueue := ⟨[],∅,0,max window 1⟩

/-- What `admit` answers. -/
def admits (q : JobQueue) (j : JobId) : Admit :=
  if j ∈ q.known then .duplicate else if q.jobs.length ≥ q.window then .deferred else .queued

/-- Offers a job to the back of the queue. -/
def admitJob (q : JobQueue) (j : JobId) : JobQueue :=
  match q.admits j with
  | .duplicate => q
  | .deferred => { q with overflow := q.overflow+1 }
  | .queued => { q with known := insert j q.known, jobs := q.jobs ++ [j] }

/-- Returns a job that was popped but not bound to the very front. -/
def pushFront (q : JobQueue) (j : JobId) : JobQueue :=
  { q with known := insert j q.known, jobs := j :: q.jobs }

/-- `try_pop`, apart from the wake-up it chains. -/
def tryPop (q : JobQueue) : Option JobId × JobQueue := (q.jobs.head?,{ q with jobs := q.jobs.tail })

/-- Whether `try_pop` wakes another worker: it took a job and there are more. -/
def chains (q : JobQueue) : Bool := 2 ≤ q.jobs.length

/-- The job reached a terminal state: stop tracking it. -/
def forget (q : JobQueue) (j : JobId) : JobQueue := { q with known := q.known.erase j }

def resetOverflow (q : JobQueue) : JobQueue := { q with overflow := 0 }

/-- Whether the job is waiting here. -/
def isWaiting (q : JobQueue) (j : JobId) : Bool := j ∈ q.jobs

/-- Removes a specific queued job (operator cancel). -/
def remove (q : JobQueue) (j : JobId) : JobQueue :=
  if q.isWaiting j then
    { q with jobs := q.jobs.filter (· ≠ j), known := q.known.erase j }
  else q

section Admit

variable {q : JobQueue} {j : JobId}

theorem admits_eq_queued : q.admits j = .queued ↔ j ∉ q.known ∧ q.jobs.length < q.window := by
  unfold admits
  by_cases hk : j ∈ q.known
  · simp [hk]
  · by_cases hl : q.jobs.length ≥ q.window
    · simp [hk,hl]
    · simp [hk,hl,not_le.mp hl]

theorem admit_of_queued (h : q.admits j = .queued) :
    q.admitJob j = { q with known := insert j q.known, jobs := q.jobs ++ [j] } := by
  simp only [admitJob,h]

/-- An offer that is not taken shows in the overflow at most. -/
theorem admit_of_not_queued (h : q.admits j ≠ .queued) :
    (q.admitJob j).jobs = q.jobs ∧ (q.admitJob j).known = q.known := by
  unfold admitJob
  split
  · exact ⟨rfl,rfl⟩
  · exact ⟨rfl,rfl⟩
  next hq => exact absurd hq h

theorem admit_window (q : JobQueue) (j : JobId) : (q.admitJob j).window = q.window := by
  unfold admitJob
  split <;> rfl

end Admit

end JobQueue

end GumEngine
