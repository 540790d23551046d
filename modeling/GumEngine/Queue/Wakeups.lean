import GumEngine.Queue.JobQueue
import GumEngine.Transition.Machine

/-!
# No lost wake-up

`pop` waits on a `Notify`, which wakes one waiting future or stores a single permit. The lock
section of each operation and the `notify_one` after it are separate steps, so a burst of
them collapses into one permit; what keeps every waiting worker going is that `try_pop`
notifies again when it leaves jobs behind.
-/

namespace GumEngine
open Transition

/-- Where a worker is in `pop`. Its future can be dropped while it is parked or woken. -/
inductive PopAt
  | outside
  /-- Before the first `try_pop`. -/
  | trying
  /-- `try_pop` found nothing; the future is not polled yet. -/
  | empty
  /-- The future is registered with the `Notify`. -/
  | parked
  /-- It was woken and has not run. -/
  | woken
  /-- It took a notification or the permit; `try_pop` comes next. -/
  | retrying
deriving DecidableEq, Repr

/-- The queue with its `Notify`: the stored permit, and the calls of `notify_one` whose lock
section is over. -/
structure Wakeups (W : Type) where
  queue : JobQueue
  permit : Bool
  pending : Nat
  worker : W → PopAt

inductive WakeEvent (W : Type)
  | admitJob (j : JobId)
  | pushFront (j : JobId)
  | remove (j : JobId)
  | forget (j : JobId)
  /-- A pending `notify_one` takes place; it wakes the given worker. -/
  | notify (woken : Option W)
  | pop (w : W)
  /-- The lock section of `try_pop`. -/
  | tryPop (w : W)
  /-- The future is polled for the first time, or after it was woken. -/
  | poll (w : W)
  /-- The future is dropped; a notification it had passes to the given worker. -/
  | drop (w : W) (next : Option W)

namespace Wakeups

variable {W : Type} [DecidableEq W]

def goto (s : Wakeups W) (w : W) (p : PopAt) : Wakeups W :=
  { s with worker := Function.update s.worker w p }

def init (window : Nat) : Wakeups W := ⟨.new window,false,0,fun _ => .outside⟩

/-- `notify_one`: a waiting future is woken, or the permit stored. -/
def notifyOne (s : Wakeups W) : Option W → Wakeups W
  | some w => s.goto w .woken
  | none => { s with permit := true }

def pollStep (s : Wakeups W) (w : W) : Wakeups W :=
  match s.worker w with
  | .empty =>
    if s.permit then { s.goto w .retrying with permit := false } else s.goto w .parked
  | .woken => s.goto w .retrying
  | _ => s

def tryPopStep (s : Wakeups W) (w : W) : Wakeups W :=
  match s.queue.tryPop with
  | (some _,queue) =>
    { s.goto w .outside with
      queue := queue
      pending := if s.queue.chains then s.pending+1 else s.pending }
  | (none,_) => s.goto w .empty

def dropStep (s : Wakeups W) (w : W) (next : Option W) : Wakeups W :=
  if s.worker w = .woken then (s.goto w .outside).notifyOne next else s.goto w .outside

def step (s : Wakeups W) : WakeEvent W → Wakeups W
  | .admitJob j =>
    { s with
      queue := s.queue.admitJob j
      pending := if s.queue.admits j = .queued then s.pending+1 else s.pending }
  | .pushFront j => { s with queue := s.queue.pushFront j, pending := s.pending+1 }
  | .remove j => { s with queue := s.queue.remove j }
  | .forget j => { s with queue := s.queue.forget j }
  | .notify woken => { s.notifyOne woken with pending := s.pending-1 }
  | .pop w => s.goto w .trying
  | .tryPop w => s.tryPopStep w
  | .poll w => s.pollStep w
  | .drop w next => s.dropStep w next

/-- A notification goes to a parked future if there is one. -/
def Delivers (s : Wakeups W) : Option W → Prop
  | some w => s.worker w = .parked
  | none => ∀ w, s.worker w ≠ .parked

def Allowed (s : Wakeups W) : WakeEvent W → Prop
  | .notify woken => 0 < s.pending ∧ s.Delivers woken
  | .pop w => s.worker w = .outside
  | .tryPop w => s.worker w = .trying ∨ s.worker w = .retrying
  | .poll w => s.worker w = .empty ∨ s.worker w = .woken
  | .drop w next => s.worker w = .parked ∨ s.worker w = .woken ∧ (s.goto w .outside).Delivers next
  | _ => True

def machine : Machine (Wakeups W) (WakeEvent W) where
  allowed := Allowed
  step := step

/-- A worker that will sleep, or sleeps, unless it is notified. -/
def Idle (s : Wakeups W) : Prop := ∃ w, s.worker w = .parked ∨ s.worker w = .empty

/-- A notification is stored, under way, or with a worker that has yet to retry. -/
def Signalled (s : Wakeups W) : Prop :=
  s.permit = true ∨ 0 < s.pending ∨ ∃ w, s.worker w = .woken ∨ s.worker w = .retrying

/-- Jobs and an idle worker come with a notification. -/
def Awake (s : Wakeups W) : Prop := s.queue.jobs ≠ [] → s.Idle → s.Signalled

section Awake

variable {s : Wakeups W} {w : W}

/-- A notification that is delivered is not lost. -/
theorem signalled_notifyOne (s : Wakeups W) (next : Option W) : (s.notifyOne next).Signalled := by
  cases next with
  | some w => exact Or.inr (Or.inr ⟨w,Or.inl (Function.update_self ..)⟩)
  | none => exact Or.inl rfl

/-- A worker that neither has nor needs a notification moves where it needs none. -/
theorem Awake.goto {p : PopAt} (h : s.Awake) (hw : s.worker w ≠ .woken ∧ s.worker w ≠ .retrying)
    (hp : p ≠ .parked ∧ p ≠ .empty) : (s.goto w p).Awake := by
  rintro hjobs ⟨v,hv⟩
  have hne : v ≠ w := by
    rintro rfl
    have hself : (s.goto v p).worker v = p := Function.update_self ..
    rw [hself] at hv
    exact hv.elim hp.1 hp.2
  have hsame : (s.goto w p).worker v = s.worker v := Function.update_of_ne hne ..
  obtain hs | hs | ⟨u,hu⟩ := h hjobs ⟨v,hsame ▸ hv⟩
  · exact Or.inl hs
  · exact Or.inr (Or.inl hs)
  · have hu' : u ≠ w := by
      rintro rfl
      exact hu.elim hw.1 hw.2
    refine Or.inr (Or.inr ⟨u,?_⟩)
    show Function.update s.worker w p u = _ ∨ Function.update s.worker w p u = _
    rw [Function.update_of_ne hu']
    exact hu

/-- `try_pop` notifies again if it leaves jobs behind. -/
theorem Awake.tryPopStep (s : Wakeups W) (w : W) : (s.tryPopStep w).Awake := by
  intro hjobs _
  unfold Wakeups.tryPopStep JobQueue.tryPop at hjobs ⊢
  cases hq : s.queue.jobs with
  | nil =>
    rw [hq] at hjobs
    exact absurd hq hjobs
  | cons j jobs =>
    rw [hq] at hjobs
    have hlen : s.queue.chains = true := by
      cases jobs with
      | nil => exact absurd rfl hjobs
      | cons k jobs => simp [JobQueue.chains,hq]
    exact Or.inr (Or.inl (by simp [hlen]))

theorem Awake.step {e : WakeEvent W} (h : s.Awake) (ha : Allowed s e) : (s.step e).Awake := by
  cases e with
  | admitJob j =>
    intro hjobs hidle
    by_cases hq : s.queue.admits j = .queued
    · exact Or.inr (Or.inl (by simp [Wakeups.step,hq]))
    · have hsame : (s.queue.admitJob j).jobs = s.queue.jobs := (JobQueue.admit_of_not_queued hq).1
      obtain hs | hs | hs := h (hsame ▸ hjobs) hidle
      · exact Or.inl hs
      · exact Or.inr (Or.inl (by simpa [Wakeups.step,hq] using hs))
      · exact Or.inr (Or.inr hs)
  | pushFront j => exact fun _ _ => Or.inr (Or.inl (Nat.succ_pos _))
  | remove j =>
    refine fun hjobs hidle => h (fun hnil => hjobs ?_) hidle
    show (s.queue.remove j).jobs = []
    simp [JobQueue.remove,JobQueue.isWaiting,hnil]
  | forget j => exact h
  | notify woken =>
    intro _ _
    obtain hs | hs | hs := signalled_notifyOne s woken
    · exact Or.inl hs
    · -- The permit and the workers are what a notification leaves behind.
      cases woken with
      | some w => exact Or.inr (Or.inr ⟨w,Or.inl (Function.update_self ..)⟩)
      | none => exact Or.inl rfl
    · exact Or.inr (Or.inr hs)
  | pop w =>
    have hw : s.worker w = .outside := ha
    exact h.goto (by simp [hw]) (by simp)
  | tryPop w => exact .tryPopStep s w
  | poll w =>
    show (s.pollStep w).Awake
    unfold pollStep
    split
    next hw =>
      split
      · exact fun _ _ => Or.inr (Or.inr ⟨w,Or.inr (Function.update_self ..)⟩)
      next hp =>
        -- It was idle before it parked, so what is signalled is so still.
        intro hjobs _
        obtain hs | hs | ⟨u,hu⟩ := h hjobs ⟨w,Or.inr hw⟩
        · exact absurd hs hp
        · exact Or.inr (Or.inl hs)
        · have hne : u ≠ w := by
            rintro rfl
            simp [hw] at hu
          refine Or.inr (Or.inr ⟨u,?_⟩)
          show Function.update s.worker w .parked u = _ ∨ Function.update s.worker w .parked u = _
          rw [Function.update_of_ne hne]
          exact hu
    next => exact fun _ _ => Or.inr (Or.inr ⟨w,Or.inr (Function.update_self ..)⟩)
    next => exact h
  | drop w next =>
    show (s.dropStep w next).Awake
    unfold dropStep
    split
    · exact fun _ _ => signalled_notifyOne _ next
    next hw =>
      have hp : s.worker w = .parked := ha.resolve_right fun h => hw h.1
      exact h.goto (by simp [hp]) (by simp)

end Awake

/-- In no reachable state do jobs wait for a parked worker without a permit, a pending
`notify_one` or a woken worker that has yet to retry. -/
theorem no_lost_wakeup (window : Nat) {s : Wakeups W} (h : machine.Reaches (init window) s) :
    ¬ (s.queue.jobs ≠ [] ∧ (∃ w, s.worker w = .parked) ∧ s.permit = false ∧ s.pending = 0 ∧
      ∀ w, s.worker w ≠ .woken ∧ s.worker w ≠ .retrying) := by
  have hawake : s.Awake := h.invariant (fun hjobs => absurd rfl hjobs) fun _ _ hs ha => hs.step ha
  rintro ⟨hjobs,⟨w,hw⟩,hpermit,hpending,hworkers⟩
  obtain hs | hs | ⟨v,hv⟩ := hawake hjobs ⟨w,Or.inl hw⟩
  · rw [hpermit] at hs
    cases hs
  · omega
  · exact hv.elim (hworkers v).1 (hworkers v).2

instance [Fintype W] (s : Wakeups W) : DecidablePred s.Delivers
  | some w => inferInstanceAs (Decidable (s.worker w = .parked))
  | none => inferInstanceAs (Decidable (∀ w, s.worker w ≠ .parked))

instance [Fintype W] (s : Wakeups W) : DecidablePred (Allowed s)
  | .admitJob _ => .isTrue trivial
  | .pushFront _ => .isTrue trivial
  | .remove _ => .isTrue trivial
  | .forget _ => .isTrue trivial
  | .notify woken => inferInstanceAs (Decidable (0 < s.pending ∧ s.Delivers woken))
  | .pop w => inferInstanceAs (Decidable (s.worker w = .outside))
  | .tryPop w => inferInstanceAs (Decidable (s.worker w = .trying ∨ s.worker w = .retrying))
  | .poll w => inferInstanceAs (Decidable (s.worker w = .empty ∨ s.worker w = .woken))
  | .drop w next => inferInstanceAs (Decidable
      (s.worker w = .parked ∨ s.worker w = .woken ∧ (s.goto w .outside).Delivers next))

instance [Fintype W] (s : Wakeups W) (e : WakeEvent W) : Decidable (machine.allowed s e) :=
  inferInstanceAs (Decidable (Allowed s e))

/-- A parked worker is woken for a job that another one takes, and is dropped before it runs;
the jobs that come meanwhile share a permit. -/
def burst : List (WakeEvent Bool) :=
  [.pop true,.tryPop true,.poll true,.admitJob 1,.notify (some true),.pop false,.tryPop false,.admitJob 2,
    .admitJob 3,.pop false,.tryPop false,.notify none,.drop true none,.pop false,.tryPop false,
    .pop false,.tryPop false,.pushFront 3]

theorem no_lost_wakeup_burst :
    (burst.foldl step (init 4 : Wakeups Bool)).queue.jobs = [3] ∧
      ¬ ((burst.foldl step (init 4 : Wakeups Bool)).queue.jobs ≠ [] ∧
        (∃ w, (burst.foldl step (init 4 : Wakeups Bool)).worker w = .parked) ∧
        (burst.foldl step (init 4 : Wakeups Bool)).permit = false ∧
        (burst.foldl step (init 4 : Wakeups Bool)).pending = 0 ∧
        ∀ w, (burst.foldl step (init 4 : Wakeups Bool)).worker w ≠ .woken ∧
          (burst.foldl step (init 4 : Wakeups Bool)).worker w ≠ .retrying) := by
  have h : machine.Runs (init 4 : Wakeups Bool) burst := by decide
  exact ⟨by decide,no_lost_wakeup 4 h.reaches⟩

end Wakeups

end GumEngine
