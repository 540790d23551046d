import GumEngine.Queue.Tracked

/-!
# Backpressure

The submit handler compares `max_depth` with a counter of the jobs in memory. Rows that the
window deferred and jobs that a worker has started are queued in the store and not in the
counter, so it bounds what waits in memory.
-/

namespace GumEngine
open Transition

/-- The job was waiting when the operator cancelled it. -/
def CancelAt.ofWaiting : CancelAt → Bool
  | removed waiting | committed waiting => waiting

namespace Desk

/-- The job of a worker that counts as queued: not started yet, or about to be pushed back. -/
def carried : TaskAt → Option JobId
  | .popped j | .pushing j => some j
  | _ => none

def carrying (t : TaskAt) : Bool := (carried t).isSome

variable {S : Type}

/-- The job waits in memory. -/
def Waits (s : Desk S) (j : JobId) : Prop :=
  j ∈ s.queue.jobs ∨ ∃ w, carried (s.worker w) = some j

/-- The chain's rows in status queued. -/
noncomputable def durable (s : Desk S) : Nat := {j | s.stored j = some .queued}.ncard

/-- What the counter does not see: queued rows that the window deferred or that a worker has
started, and jobs that were admitted and not added yet. -/
noncomputable def unseen (s : Desk S) : Nat :=
  {j | s.stored j = some .queued ∧ ¬ s.Waits j}.ncard+s.counting.length

/-- Cancels of jobs that were waiting, whose count has not moved. -/
def taken (s : Desk S) : Nat := s.cancels.countP fun p => p.2.ofWaiting

variable [DecidableEq S] [Fintype S]

def waiting (s : Desk S) : Nat := s.queue.jobs.length+s.workersAt carrying

/-- The counter has at least what waits in memory and was added. -/
def Covered (s : Desk S) : Prop := s.waiting+s.taken ≤ s.queuedCount+s.counting.length

section Steps

variable {s s' : Desk S} {w : S} {j : JobId}

omit [DecidableEq S] in
theorem card_waits (s : Desk S) : {j | s.stored j = some .queued ∧ s.Waits j}.ncard ≤ s.waiting := by
  classical
  let held := Finset.univ.filter fun w => carrying (s.worker w) = true
  let ids := s.queue.jobs.toFinset ∪ held.image fun w => (carried (s.worker w)).getD 0
  have hsub : {j | s.stored j = some .queued ∧ s.Waits j} ⊆ (ids : Set JobId) := by
    rintro j ⟨-,hj | ⟨w,hw⟩⟩
    · exact Finset.mem_coe.mpr (Finset.mem_union_left _ (List.mem_toFinset.mpr hj))
    · refine Finset.mem_coe.mpr (Finset.mem_union_right _ (Finset.mem_image.mpr ⟨w,?_,?_⟩))
      · exact Finset.mem_filter.mpr ⟨Finset.mem_univ w,by rw [carrying,hw]; rfl⟩
      · rw [hw]
        rfl
  calc {j | s.stored j = some .queued ∧ s.Waits j}.ncard
      ≤ ids.card := by
        rw [← Set.ncard_coe_finset]
        exact Set.ncard_le_ncard hsub ids.finite_toSet
    _ ≤ s.queue.jobs.toFinset.card+(held.image fun w => (carried (s.worker w)).getD 0).card :=
        Finset.card_union_le ..
    _ ≤ s.waiting := Nat.add_le_add (List.toFinset_card_le _) Finset.card_image_le

omit [DecidableEq S] in
/-- Every queued row waits in memory or is one that the counter does not see. -/
theorem durable_le (s : Desk S) : s.durable+s.counting.length ≤ s.waiting+s.unseen := by
  have hunion : {j | s.stored j = some .queued} =
      {j | s.stored j = some .queued ∧ s.Waits j} ∪
        {j | s.stored j = some .queued ∧ ¬ s.Waits j} := by
    ext j
    by_cases hj : s.Waits j
    · simp [hj]
    · simp [hj]
  have hle := Set.ncard_union_le {j | s.stored j = some .queued ∧ s.Waits j}
    {j | s.stored j = some .queued ∧ ¬ s.Waits j}
  rw [← hunion] at hle
  have hwaits := card_waits s
  unfold durable unseen
  omega

/-- A worker moves; its queue and counters are looked at apart. -/
theorem carrying_goto (s : Desk S) (w : S) (t : TaskAt) :
    (s.goto w t).workersAt carrying+(carrying (s.worker w)).toNat =
      s.workersAt carrying+(carrying t).toNat :=
  workersAt_update rfl carrying

omit [Fintype S] in
/-- A job of a signer moves. -/
theorem queuedCount_move (s : Desk S) (v : S) (a : Bucket) (b : StatsSlot S) :
    s.queuedCount ≤ (s.move (some v,a) b).queuedCount := by
  show _ ≤ (s.stats.transition (some v,a) b).count _
  rw [Stats.count_transition]
  exact Nat.le_add_right ..

/-- What a worker's step takes from the waiting jobs it takes from the counter at most. -/
theorem workerStep_waiting (c : DeskConfig) (s : Desk S) (w : S) (e : DeskEvent S) :
    (s.workerStep c w e).waiting+s.queuedCount ≤ s.waiting+(s.workerStep c w e).queuedCount := by
  -- Branches that neither carry nor count.
  have hquiet (s' : Desk S) (t : TaskAt) (hw : s'.worker = Function.update s.worker w t)
      (hj : s'.queue.jobs = s.queue.jobs) (ht : carrying t = false)
      (hq : s.queuedCount ≤ s'.queuedCount) :
      s'.waiting+s.queuedCount ≤ s.waiting+s'.queuedCount := by
    have hu := workersAt_update hw carrying
    rw [ht] at hu
    unfold waiting
    rw [hj]
    simp only [Bool.toNat_false,Nat.add_zero] at hu
    omega
  have hpush (s' : Desk S) (j : JobId) (hw : s'.worker = Function.update s.worker w .idle)
      (hc : carrying (s.worker w) = true) (hj : s'.queue.jobs = j :: s.queue.jobs)
      (hq : s'.queuedCount = s.queuedCount) :
      s'.waiting+s.queuedCount ≤ s.waiting+s'.queuedCount := by
    have hu := workersAt_update hw carrying
    rw [hc] at hu
    unfold waiting
    rw [hj,hq,List.length_cons]
    have hidle : carrying .idle = false := rfl
    rw [hidle] at hu
    simp only [Bool.toNat_false,Bool.toNat_true,Nat.add_zero] at hu
    omega
  unfold workerStep
  split
  next j _ hw => exact hpush _ j rfl (by rw [hw]; rfl) rfl rfl
  next j _ hw =>
    have hu := carrying_goto s w (.processing j)
    have hcount : ((s.goto w (.processing j)).move (none,.queued) (some w,.processing)).queuedCount =
        s.queuedCount-1 := Stats.count_transition ..
    rw [hcount,hw] at *
    show s.queue.jobs.length+(s.goto w (.processing j)).workersAt carrying+_ ≤ _
    have hone : carrying (.popped j) = true := rfl
    have hzero : carrying (.processing j) = false := rfl
    rw [hone,hzero] at hu
    simp only [Bool.toNat_false,Bool.toNat_true,Nat.add_zero] at hu
    unfold waiting
    omega
  next j _ hw => split <;> exact hquiet _ _ rfl rfl rfl le_rfl
  next j _ hw => exact hquiet _ _ rfl rfl rfl le_rfl
  next j _ hw => exact hquiet _ _ rfl rfl rfl (queuedCount_move (s.goto w _) w _ _)
  next j _ hw =>
    split
    · exact hquiet _ _ rfl rfl rfl le_rfl
    · exact hquiet _ _ rfl rfl rfl (queuedCount_move (s.goto w _) w _ _)
  next j _ hw => exact hquiet _ _ rfl rfl rfl (queuedCount_move (s.goto w _) w _ _)
  next j _ hw => exact hquiet _ _ rfl rfl rfl le_rfl
  next j _ hw => exact hquiet _ _ rfl rfl rfl le_rfl
  next j _ _ hw =>
    split
    · exact hquiet _ _ rfl rfl rfl (queuedCount_move (s.goto w _) w _ _)
    · exact hquiet _ _ rfl rfl rfl le_rfl
  next j _ _ outcome _ hw =>
    let mined := s.move (some w,.inFlight) (some w,.included)
    have hmined : s.queuedCount ≤ mined.queuedCount := queuedCount_move s w _ _
    dsimp only
    split
    · exact hquiet _ (.forgetting j) rfl rfl rfl
        (hmined.trans (queuedCount_move (mined.goto w (.forgetting j)) w .included _))
    · exact hquiet _ .idle rfl rfl rfl hmined
  next j _ hw => exact hquiet _ _ rfl rfl rfl le_rfl
  next j _ hw => exact hquiet _ _ rfl rfl rfl (queuedCount_move (s.goto w _) w _ _)
  next j _ hw => exact hquiet _ _ rfl rfl rfl (queuedCount_move (s.goto w _) w _ _)
  next j afterBind _ hw =>
    have hu := carrying_goto s w (.pushing j)
    have hcount (b : Bucket) :
        ((s.goto w (.pushing j)).move (some w,b) (none,.queued)).queuedCount = s.queuedCount+1 :=
      Stats.count_transition ..
    rw [hcount,hw] at *
    show s.queue.jobs.length+(s.goto w (.pushing j)).workersAt carrying+_ ≤ _
    have hone : carrying (.pushing j) = true := rfl
    have hzero : carrying (.ending j (.requeue afterBind)) = false := rfl
    rw [hone,hzero] at hu
    simp only [Bool.toNat_false,Bool.toNat_true,Nat.add_zero] at hu
    unfold waiting
    omega
  next j _ hw => exact hquiet _ _ rfl rfl rfl (queuedCount_move (s.goto w _) w _ _)
  next j _ hw => exact hquiet _ _ rfl rfl rfl le_rfl
  next j _ hw => exact hpush _ j rfl (by rw [hw]; rfl) rfl rfl
  next => exact le_rfl

theorem Covered.pop (h : Covered s) (hw : s.worker w = .idle) : Covered (s.pop w) := by
  unfold Desk.pop JobQueue.tryPop
  cases hjobs : s.queue.jobs with
  | nil => exact h
  | cons j rest =>
    have hu := carrying_goto s w (.popped j)
    rw [hw] at hu
    have hone : carrying (.popped j) = true := rfl
    have hzero : carrying .idle = false := rfl
    rw [hone,hzero] at hu
    simp only [Bool.toNat_false,Bool.toNat_true,Nat.add_zero] at hu
    unfold Covered waiting at h ⊢
    rw [hjobs,List.length_cons] at h
    show rest.length+(s.goto w (.popped j)).workersAt carrying+s.taken ≤
      s.queuedCount+s.counting.length
    omega

omit [DecidableEq S] in
theorem Covered.admitJob (h : Covered s) (j : JobId) : Covered (s.admitJob j) := by
  unfold Covered waiting at h ⊢
  by_cases hq : s.queue.admits j = .queued
  · have hcounting : (s.admitJob j).counting = j :: s.counting := if_pos hq
    have hjobs : (s.admitJob j).queue.jobs = s.queue.jobs ++ [j] := by
      show (s.queue.admitJob j).jobs = _
      rw [JobQueue.admit_of_queued hq]
    rw [hcounting,hjobs,List.length_append,List.length_singleton,List.length_cons]
    show s.queue.jobs.length+1+s.workersAt carrying+s.taken ≤ s.queuedCount+(s.counting.length+1)
    omega
  · have hcounting : (s.admitJob j).counting = s.counting := if_neg hq
    have hjobs : (s.admitJob j).queue.jobs = s.queue.jobs := (JobQueue.admit_of_not_queued hq).1
    rw [hcounting,hjobs]
    exact h

omit [DecidableEq S] in
theorem Covered.cancel (h : Covered s) (j : JobId) : Covered (s.cancel j) := by
  unfold Covered waiting at h ⊢
  show (s.queue.remove j).jobs.length+s.workersAt carrying+(s.cancel j).taken ≤
    s.queuedCount+s.counting.length
  by_cases hj : j ∈ s.queue.jobs
  · have hwaits : s.queue.isWaiting j = true := decide_eq_true hj
    have hjobs : (s.queue.remove j).jobs = s.queue.jobs.filter (· ≠ j) := by
      rw [JobQueue.remove,if_pos hwaits]
    have htaken : (s.cancel j).taken = s.taken+1 := by
      show ((j,CancelAt.removed (s.queue.isWaiting j)) :: s.cancels).countP _ = _
      rw [hwaits]
      exact List.countP_cons_of_pos rfl
    have hlt : (s.queue.jobs.filter (· ≠ j)).length < s.queue.jobs.length :=
      List.length_filter_lt_length_iff_exists.mpr ⟨j,hj,by simp⟩
    rw [hjobs,htaken]
    omega
  · have hwaits : s.queue.isWaiting j = false := decide_eq_false hj
    have hjobs : s.queue.remove j = s.queue := by
      rw [JobQueue.remove,hwaits]
      rfl
    have htaken : (s.cancel j).taken = s.taken := by
      show ((j,CancelAt.removed (s.queue.isWaiting j)) :: s.cancels).countP _ = _
      rw [hwaits]
      exact List.countP_cons_of_neg nofun
    rw [hjobs,htaken]
    exact h

omit [DecidableEq S] [Fintype S] in
/-- One cancel apart from the others. -/
theorem taken_erase {p : JobId × CancelAt} (hp : p ∈ s.cancels) :
    s.taken = (s.cancels.erase p).countP (fun p => p.2.ofWaiting)+p.2.ofWaiting.toNat := by
  rw [taken,(List.perm_cons_erase hp).countP_eq,List.countP_cons]
  cases p.2.ofWaiting <;> rfl

theorem Covered.cancelStore (h : Covered s) {waiting : Bool}
    (hj : (j,.removed waiting) ∈ s.cancels) : Covered (s.cancelStore j waiting) := by
  have htaken := taken_erase hj
  unfold Desk.cancelStore
  dsimp only
  split
  · have hsame : ((j,CancelAt.committed waiting) :: s.cancels.erase (j,.removed waiting)).countP
        (fun p => p.2.ofWaiting) = s.taken := by
      rw [htaken,List.countP_cons]
      cases waiting <;> rfl
    unfold Covered at h ⊢
    show s.waiting+((j,CancelAt.committed waiting) :: s.cancels.erase (j,.removed waiting)).countP
      (fun p => p.2.ofWaiting) ≤ s.queuedCount+s.counting.length
    omega
  · unfold Covered at h ⊢
    show s.waiting+(s.cancels.erase (j,.removed waiting)).countP (fun p => p.2.ofWaiting) ≤
      s.queuedCount+s.counting.length
    omega

theorem Covered.cancelCount (h : Covered s) {waiting : Bool}
    (hj : (j,.committed waiting) ∈ s.cancels) : Covered (s.cancelCount j waiting) := by
  have htaken := taken_erase hj
  have hcount : s.queuedCount ≤ (s.cancelCount j waiting).queuedCount+waiting.toNat := by
    cases waiting with
    | true =>
      have hq : (s.cancelCount j true).queuedCount = s.queuedCount-1 := Stats.count_transition ..
      rw [hq]
      exact Nat.le_add_of_sub_le le_rfl
    | false =>
      have hq : (s.cancelCount j false).queuedCount = s.queuedCount := Stats.count_add ..
      rw [hq]
      exact Nat.le_add_right ..
  unfold Covered at h ⊢
  show s.waiting+(s.cancels.erase (j,.committed waiting)).countP (fun p => p.2.ofWaiting) ≤
    (s.cancelCount j waiting).queuedCount+s.counting.length
  have hof : (CancelAt.committed waiting).ofWaiting = waiting := rfl
  rw [hof] at htaken
  omega

theorem Covered.step (c : DeskConfig) (h : Covered s) {e : DeskEvent S} (he : s.Allowed e) :
    Covered (s.step c e) := by
  have hwork (w : S) : Covered (s.workerStep c w e) := by
    obtain ⟨hcounting,hcancels⟩ := workerStep_frame c s w e
    have hwaiting := workerStep_waiting c s w e
    unfold Covered taken at h ⊢
    rw [hcounting,hcancels]
    omega
  cases e with
  | submit j =>
    show Covered (s.submit c j)
    unfold Desk.submit
    split <;> exact h
  | sweep page => exact h
  | resetOverflow => exact h
  | admitJob j => exact h.admitJob j
  | count j =>
    unfold Covered at h ⊢
    have hlen : (s.counting.erase j).length+1 = s.counting.length := by
      rw [List.length_erase_of_mem he]
      exact Nat.sub_add_cancel (List.length_pos_of_mem he)
    have hcount : (s.step c (.count j)).queuedCount = s.queuedCount+1 := Stats.count_add ..
    rw [hcount]
    show s.waiting+s.taken ≤ s.queuedCount+1+(s.counting.erase j).length
    omega
  | pop w => exact h.pop he.1
  | cancel j => exact h.cancel j
  | cancelStore j waiting => exact h.cancelStore he
  | cancelLost j waiting =>
    have htaken := taken_erase he
    unfold Covered at h ⊢
    show s.waiting+(s.cancels.erase (j,.removed waiting)).countP (fun p => p.2.ofWaiting) ≤
      s.queuedCount+s.counting.length
    omega
  | cancelCount j waiting => exact h.cancelCount he
  | settle j st => exact h
  | accountMoved job =>
    have hq : s.queuedCount ≤ (s.accountMoved job).queuedCount :=
      queuedCount_move s job.signer _ _
    exact h.trans (Nat.add_le_add_right hq _)
  | accountEnded job outcome =>
    have hq : s.queuedCount ≤ (s.accountEnded job outcome).queuedCount :=
      queuedCount_move s job.signer _ _
    exact h.trans (Nat.add_le_add_right hq _)
  | putBack w | start w | fail w | retry w | send w | bind w | notBound w | void w _
  | mined w _ _ | leave w | finish w | release w => exact hwork w

end Steps

omit [DecidableEq S] in
theorem Covered.init (window : Nat) : Covered (init window : Desk S) := by
  have hidle : (Desk.init window : Desk S).workersAt carrying = 0 := by
    simp [workersAt,Desk.init,Desk.boot,carrying,carried]
  unfold Covered waiting
  rw [hidle]
  exact Nat.zero_le _

/-- A submission that finds `max_depth` rows queued is refused, as long as enough of them are in
the counter. -/
theorem full_when_seen (c : DeskConfig) (window : Nat) {s : Desk S}
    (hs : (machine c).Reaches (init window) s)
    (hseen : c.maxDepth ≤ s.durable → c.maxDepth+s.unseen ≤ s.durable)
    (j : JobId) (hdepth : c.maxDepth ≤ s.durable) :
    s.queueFull c = true ∧ (machine c).step s (.submit j) = s := by
  have hcovered : Covered s := hs.invariant (.init window) fun _ _ ht he => ht.step c he
  have hle := durable_le s
  have hunseen := hseen hdepth
  have hfull : s.queueFull c = true := by
    refine decide_eq_true ?_
    unfold Covered at hcovered
    omega
  exact ⟨hfull,if_pos hfull⟩

/-- Two jobs are submitted and offered to the queue. -/
def twoJobs : List (DeskEvent Unit) := [.submit 1,.admitJob 1,.count 1,.submit 2,.admitJob 2]

/-- The second is counted as well. -/
def twoCounted : List (DeskEvent Unit) := twoJobs ++ [.count 2]

def threeJobs : List (DeskEvent Unit) := twoJobs ++ [.submit 3]

/-- Both rows are queued, whatever the window. -/
theorem durable_twoJobs {s : Desk Unit}
    (hs : s.stored = Function.update (Function.update (fun _ => none) 1 (some .queued)) 2
      (some .queued)) : s.durable = 2 := by
  have hset : {j | s.stored j = some .queued} = ({1,2} : Set JobId) := by
    ext j
    rw [hs]
    by_cases h2 : j = 2
    · simp [h2]
    · by_cases h1 : j = 1
      · simp [h1,Function.update_apply]
      · simp [h1,h2,Function.update_apply]
  rw [durable,hset]
  exact Set.ncard_pair (by decide)

theorem full_when_seen_two :
    (twoCounted.foldl (step ⟨2,false⟩) (init 2)).durable = 2 ∧
      (twoCounted.foldl (step ⟨2,false⟩) (init 2)).unseen = 0 ∧
      (twoCounted.foldl (step ⟨2,false⟩) (init 2)).queueFull ⟨2,false⟩ = true := by
  have hrun : (machine ⟨2,false⟩).Runs (init 2) twoCounted := by decide
  have hdurable : (twoCounted.foldl (step ⟨2,false⟩) (init 2)).durable = 2 :=
    durable_twoJobs rfl
  have hunseen : (twoCounted.foldl (step ⟨2,false⟩) (init 2)).unseen = 0 := by
    have hempty : {j | (twoCounted.foldl (step ⟨2,false⟩) (init 2)).stored j =
        some .queued ∧ ¬ (twoCounted.foldl (step ⟨2,false⟩) (init 2)).Waits j} = ∅ := by
      ext j
      refine iff_of_false (fun hj => hj.2 (.inl ?_)) (Set.notMem_empty j)
      have hstored : Function.update (Function.update (fun _ => none) 1 (some .queued)) 2
        (some .queued) j = some (StoredAt.queued : StoredAt Unit) := hj.1
      show j ∈ [1,2]
      by_contra hne
      simp only [List.mem_cons,List.not_mem_nil,or_false,not_or] at hne
      rw [Function.update_of_ne hne.2,Function.update_of_ne hne.1] at hstored
      cases hstored
    rw [unseen,hempty,Set.ncard_empty]
    rfl
  have hseen : 2+(twoCounted.foldl (step ⟨2,false⟩) (init 2)).unseen ≤
      (twoCounted.foldl (step ⟨2,false⟩) (init 2)).durable := by rw [hdurable,hunseen]
  exact ⟨hdurable,hunseen,
    (full_when_seen ⟨2,false⟩ 2 hrun.reaches (fun _ => hseen) 3 hdurable.ge).1⟩

/-- The window has room for one: the second row is deferred, and a third is accepted. -/
theorem deferred_row_unseen :
    (machine ⟨2,false⟩).Runs (init 1) threeJobs ∧
      (twoJobs.foldl (step ⟨2,false⟩) (init 1)).durable = 2 ∧
      (twoJobs.foldl (step ⟨2,false⟩) (init 1)).queueFull ⟨2,false⟩ = false ∧
      (threeJobs.foldl (step ⟨2,false⟩) (init 1)).stored 3 = some .queued :=
  ⟨by decide,durable_twoJobs rfl,by decide,by decide⟩

end Desk

end GumEngine
