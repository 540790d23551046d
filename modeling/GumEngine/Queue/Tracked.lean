import GumEngine.Queue.Desk

/-!
# No job is queued twice or stranded

A job that is known is in exactly one place: in the queue, with a worker, or left mined or in
flight. A job that was left is past its queue in the store, so one that the store has as
queued cannot hide there.
-/

namespace GumEngine
open Transition

namespace Desk

variable {S : Type}

def leftIds (s : Desk S) : List JobId := s.left.map (·.id)

/-- A worker holds the job. -/
def Holds (s : Desk S) (w : S) (j : JobId) : Prop := (s.worker w).job = some j

/-- The store has the job past its queue. -/
def Past (s : Desk S) (j : JobId) : Prop := s.stored j ≠ none ∧ s.stored j ≠ some .queued

variable [DecidableEq S]

/-- What a worker's step does with the job it holds. -/
inductive TaskEffect (s s' : Desk S) (w : S) : Prop
  | none (h : s' = s)
  /-- It goes on holding the job, whose row may change. -/
  | keeps (j : JobId) (t : TaskAt) (held : s.Holds w j) (job : t.job = some j)
      (worker : s'.worker = Function.update s.worker w t) (queue : s'.queue = s.queue)
      (left : s'.left = s.left) (stored : ∀ k, k ≠ j → s'.stored k = s.stored k)
      (bound : t = .bound j → s'.Past j)
  | pushes (j : JobId) (held : s.Holds w j)
      (worker : s'.worker = Function.update s.worker w .idle)
      (queue : s'.queue = s.queue.pushFront j) (left : s'.left = s.left)
      (stored : s'.stored = s.stored)
  | forgets (j : JobId) (held : s.Holds w j)
      (worker : s'.worker = Function.update s.worker w .idle)
      (queue : s'.queue = s.queue.forget j) (left : s'.left = s.left)
      (stored : s'.stored = s.stored)
  | leaves (j : JobId) (included : Bool) (held : s.worker w = .bound j)
      (worker : s'.worker = Function.update s.worker w .idle) (queue : s'.queue = s.queue)
      (left : s'.left = ⟨j,w,included⟩ :: s.left) (stored : s'.stored = s.stored)

theorem workerStep_effect (c : DeskConfig) (s : Desk S) (w : S) (e : DeskEvent S) :
    TaskEffect s (s.workerStep c w e) w := by
  have hput (j : JobId) (st : StoredAt S) (k : JobId) (hk : k ≠ j) :
      (s.put j st).stored k = s.stored k := Function.update_of_ne hk ..
  unfold workerStep
  split
  next j _ hw => exact .pushes j (by rw [Holds,hw]; rfl) rfl rfl rfl rfl
  next j _ hw =>
    exact .keeps j _ (by rw [Holds,hw]; rfl) rfl rfl rfl rfl (fun _ _ => rfl) nofun
  next j _ hw =>
    split
    · exact .keeps j (.ending j .failed) (by rw [Holds,hw]; rfl) rfl rfl rfl rfl (hput j _) nofun
    · exact .keeps j (.ending j .dropped) (by rw [Holds,hw]; rfl) rfl rfl rfl rfl (fun _ _ => rfl) nofun
  next j _ hw =>
    exact .keeps j _ (by rw [Holds,hw]; rfl) rfl rfl rfl rfl (fun _ _ => rfl) nofun
  next j _ hw =>
    exact .keeps j _ (by rw [Holds,hw]; rfl) rfl rfl rfl rfl (fun _ _ => rfl) nofun
  next j _ hw =>
    split
    · refine .keeps j (.bound j) (by rw [Holds,hw]; rfl) rfl rfl rfl rfl (hput j _) fun _ => ?_
      have hself : ((s.put j (.sent w)).goto w (.bound j)).stored j = some (.sent w) :=
        Function.update_self ..
      exact ⟨by rw [hself]; nofun,by rw [hself]; nofun⟩
    · exact .keeps j (.ending j .dropped) (by rw [Holds,hw]; rfl) rfl rfl rfl rfl (fun _ _ => rfl) nofun
  next j _ hw =>
    exact .keeps j _ (by rw [Holds,hw]; rfl) rfl rfl rfl rfl (fun _ _ => rfl) nofun
  next j _ hw =>
    exact .keeps j (.ending j (.requeue true)) (by rw [Holds,hw]; rfl) rfl rfl rfl rfl (hput j _) nofun
  next j _ hw =>
    exact .keeps j (.ending j .failedAfterBind) (by rw [Holds,hw]; rfl) rfl rfl rfl rfl (hput j _) nofun
  next j _ _ hw =>
    split
    · exact .keeps j (.forgetting j) (by rw [Holds,hw]; rfl) rfl rfl rfl rfl (fun _ _ => rfl) nofun
    · exact .leaves j false hw rfl rfl rfl rfl
  next j _ _ _ _ hw =>
    dsimp only
    split
    · exact .keeps j (.forgetting j) (by rw [Holds,hw]; rfl) rfl rfl rfl rfl (fun _ _ => rfl) nofun
    · exact .leaves j true hw rfl rfl rfl rfl
  next j _ hw => exact .leaves j false hw rfl rfl rfl rfl
  next j _ hw =>
    exact .keeps j _ (by rw [Holds,hw]; rfl) rfl rfl rfl rfl (fun _ _ => rfl) nofun
  next j _ hw =>
    exact .keeps j _ (by rw [Holds,hw]; rfl) rfl rfl rfl rfl (fun _ _ => rfl) nofun
  next j _ _ hw =>
    exact .keeps j _ (by rw [Holds,hw]; rfl) rfl rfl rfl rfl (fun _ _ => rfl) nofun
  next j _ hw =>
    exact .keeps j _ (by rw [Holds,hw]; rfl) rfl rfl rfl rfl (fun _ _ => rfl) nofun
  next j _ hw => exact .forgets j (by rw [Holds,hw]; rfl) rfl rfl rfl rfl
  next j _ hw => exact .pushes j (by rw [Holds,hw]; rfl) rfl rfl rfl rfl
  next => exact .none rfl

variable [Fintype S]

/-- How many workers are at a point of their loop. -/
def workersAt (s : Desk S) (p : TaskAt → Bool) : Nat :=
  (Finset.univ.filter fun w => p (s.worker w) = true).card

/-- One worker moves. -/
theorem workersAt_update {s s' : Desk S} {w : S} {t : TaskAt}
    (hw : s'.worker = Function.update s.worker w t) (p : TaskAt → Bool) :
    s'.workersAt p+(p (s.worker w)).toNat = s.workersAt p+(p t).toNat := by
  have hsum (f : S → TaskAt) : (Finset.univ.filter fun v => p (f v) = true).card =
      (p (f w)).toNat+∑ v ∈ Finset.univ.erase w,(p (f v)).toNat := by
    rw [Finset.card_filter,← Finset.add_sum_erase _ _ (Finset.mem_univ w)]
    congr 1
    · cases p (f w) <;> rfl
    · exact Finset.sum_congr rfl fun v _ => by cases p (f v) <;> rfl
  have hrest : ∑ v ∈ Finset.univ.erase w,(p (s'.worker v)).toNat =
      ∑ v ∈ Finset.univ.erase w,(p (s.worker v)).toNat := by
    refine Finset.sum_congr rfl fun v hv => ?_
    rw [hw,Function.update_of_ne (Finset.ne_of_mem_erase hv)]
  have hself : s'.worker w = t := by rw [hw,Function.update_self]
  rw [workersAt,workersAt,hsum s'.worker,hsum s.worker,hrest,hself]
  omega

def holding (j : JobId) (t : TaskAt) : Bool := t.job = some j

/-- How often a job is in the queue or with a worker. -/
def active (s : Desk S) (j : JobId) : Nat := s.queue.jobs.count j+s.workersAt (holding j)

/-- A job is in one place at most, and a known one in exactly one. What an earlier leader left
is not known. -/
structure Tracked (s : Desk S) (j : JobId) : Prop where
  once : s.active j+s.leftIds.count j ≤ 1
  known : 0 < s.active j → j ∈ s.queue.known
  placed : j ∈ s.queue.known → 0 < s.active j+s.leftIds.count j

structure Orderly (s : Desk S) : Prop where
  tracked : ∀ j, s.Tracked j
  /-- A stale row is of a job that is known, while that job is left. -/
  offers : ∀ j ∈ s.offers, j ∈ s.leftIds → j ∈ s.queue.known
  left : ∀ j ∈ s.leftIds, s.Past j
  bound : ∀ w j, s.worker w = .bound j → s.Past j

section Moves

variable {s s' : Desk S} {w : S} {j : JobId}

omit [DecidableEq S] in
theorem holding_pos (h : s.Holds w j) : 0 < s.workersAt (holding j) :=
  Finset.card_pos.mpr ⟨w,Finset.mem_filter.mpr ⟨Finset.mem_univ w,decide_eq_true h⟩⟩

omit [DecidableEq S] in
/-- What a held job's places are made of. -/
theorem Tracked.held (h : s.Tracked j) (hw : s.Holds w j) :
    j ∈ s.queue.known ∧ s.queue.jobs.count j = 0 ∧ s.workersAt (holding j) = 1 ∧
      s.leftIds.count j = 0 := by
  have hpos := holding_pos hw
  have hone := h.once
  unfold active at hone
  refine ⟨h.known (Nat.add_pos_right _ hpos),?_⟩
  omega

omit [DecidableEq S] in
/-- The same numbers, and the same knowledge. -/
theorem Tracked.same (h : s.Tracked j) (ha : s'.active j = s.active j)
    (hl : s'.leftIds.count j = s.leftIds.count j)
    (hk : j ∈ s'.queue.known ↔ j ∈ s.queue.known) : s'.Tracked j where
  once := by rw [ha,hl]; exact h.once
  known hpos := hk.mpr (h.known (ha ▸ hpos))
  placed hknown := by
    rw [ha,hl]
    exact h.placed (hk.mp hknown)

omit [DecidableEq S] [Fintype S] in
theorem Past.congr (h : s.Past j) (hst : s'.stored j = s.stored j) : s'.Past j := by
  rw [Past,hst]
  exact h

omit [DecidableEq S] in
/-- Steps that leave queue and workers and the jobs that were left alone, read no row of a job
that was left, and take no row that is past its queue back. -/
theorem Orderly.frame (h : Orderly s) (hjobs : s'.queue.jobs = s.queue.jobs)
    (hknown : s'.queue.known = s.queue.known) (hw : s'.worker = s.worker)
    (hl : ∀ k, s'.leftIds.count k = s.leftIds.count k)
    (ho : ∀ k ∈ s'.offers, k ∈ s.offers ∨ k ∉ s.leftIds) (hst : ∀ k, s.Past k → s'.Past k) :
    Orderly s' := by
  have hmem (k : JobId) (hk : k ∈ s'.leftIds) : k ∈ s.leftIds := by
    rw [← List.count_pos_iff,← hl k]
    exact List.count_pos_iff.mpr hk
  refine ⟨fun k => ?_,fun k hk hkl => ?_,fun k hk => hst k (h.left k (hmem k hk)),fun v k hv => ?_⟩
  · refine (h.tracked k).same ?_ (hl k) (by rw [hknown])
    rw [active,active,hjobs,workersAt,workersAt,hw]
  · rw [hknown]
    rcases ho k hk with hold | hnot
    · exact h.offers k hold (hmem k hkl)
    · exact absurd (hmem k hkl) hnot
  · rw [hw] at hv
    exact hst k (h.bound v k hv)

/-- Who is bound after a step of `w`. -/
theorem Orderly.bound_update (h : Orderly s) {t : TaskAt}
    (hw : s'.worker = Function.update s.worker w t) (hst : s'.stored = s.stored)
    (ht : ∀ k, t ≠ .bound k) (v : S) (k : JobId) (hv : s'.worker v = .bound k) : s'.Past k := by
  rw [hw] at hv
  by_cases hvw : v = w
  · rw [hvw,Function.update_self] at hv
    exact absurd hv (ht k)
  · rw [Function.update_of_ne hvw] at hv
    exact (h.bound v k hv).congr (congrFun hst k)

/-- The worker's part of the places, where it holds `j` before the step. -/
theorem workersAt_holds (hheld : s.Holds w j) {t : TaskAt}
    (hw : s'.worker = Function.update s.worker w t) (k : JobId) :
    s'.workersAt (holding k)+(if k = j then 1 else 0) =
      s.workersAt (holding k)+(holding k t).toNat := by
  have hu := workersAt_update hw (holding k)
  have hjk : holding k (s.worker w) = decide (j = k) := by
    rw [holding,hheld]
    simp
  rw [hjk] at hu
  by_cases hk : k = j
  · subst hk
    simpa using hu
  · simpa [hk,Ne.symm hk] using hu

/-- A worker that lets its job go. -/
theorem workersAt_idle (hheld : s.Holds w j) (hw : s'.worker = Function.update s.worker w .idle)
    (k : JobId) : s'.workersAt (holding k)+(if k = j then 1 else 0) = s.workersAt (holding k) := by
  have hu := workersAt_holds hheld hw k
  have hidle : holding k .idle = false := by simp [holding,TaskAt.job]
  rw [hidle] at hu
  simpa using hu

/-- Two workers cannot hold one job. -/
theorem Tracked.holder (h : s.Tracked j) {v : S} (hw : s.Holds w j) (hv : s.Holds v j) :
    v = w := by
  by_contra hvw
  have htwo : 2 ≤ s.workersAt (holding j) := by
    rw [workersAt,← Finset.card_pair hvw]
    refine Finset.card_le_card fun u hu => Finset.mem_filter.mpr ⟨Finset.mem_univ u,?_⟩
    rcases Finset.mem_insert.mp hu with rfl | hu
    · exact decide_eq_true hv
    · rw [Finset.mem_singleton.mp hu]
      exact decide_eq_true hw
  have := (h.held hw).2.2.1
  omega

/-- A job is let go and no other job's numbers change. -/
theorem Orderly.letGo (h : Orderly s) (hw : s'.worker = s.worker ∨
      ∃ w, s'.worker = Function.update s.worker w .idle)
    (ha : ∀ k, s'.active k = if k = j then 0 else s.active k)
    (hl : ∀ k, s'.leftIds.count k = if k = j then 0 else s.leftIds.count k)
    (hk : s'.queue.known = s.queue.known.erase j) (ho : ∀ k ∈ s'.offers, k ∈ s.offers)
    (hst : s'.stored = s.stored) : Orderly s' := by
  have hmem (k : JobId) (hkl : k ∈ s'.leftIds) : k ≠ j ∧ k ∈ s.leftIds := by
    have hpos := List.count_pos_iff.mpr hkl
    rw [hl k] at hpos
    split at hpos
    · exact absurd hpos (lt_irrefl 0)
    next hne => exact ⟨hne,List.count_pos_iff.mp hpos⟩
  refine ⟨fun k => ?_,fun k hko hkl => ?_,fun k hkl => ?_,fun v k hv => ?_⟩
  · by_cases hkj : k = j
    · refine ⟨?_,?_,?_⟩
      · rw [ha,hl,if_pos hkj,if_pos hkj]
        exact Nat.zero_le 1
      · rw [ha,if_pos hkj]
        exact fun hpos => absurd hpos (lt_irrefl 0)
      · rw [hk,Finset.mem_erase]
        exact fun hmem => absurd hkj hmem.1
    · refine (h.tracked k).same (by rw [ha,if_neg hkj]) (by rw [hl,if_neg hkj]) ?_
      rw [hk,Finset.mem_erase]
      exact and_iff_right hkj
  · obtain ⟨hne,hold⟩ := hmem k hkl
    rw [hk]
    exact Finset.mem_erase.mpr ⟨hne,h.offers k (ho k hko) hold⟩
  · exact (h.left k (hmem k hkl).2).congr (congrFun hst k)
  · rcases hw with hw | ⟨w,hw⟩
    · rw [hw] at hv
      exact (h.bound v k hv).congr (congrFun hst k)
    · exact h.bound_update hw hst nofun v k hv

theorem Orderly.task (h : Orderly s) (he : TaskEffect s s' w) (ho : s'.offers = s.offers) :
    Orderly s' := by
  cases he with
  | none hs => exact hs ▸ h
  | keeps j t held job worker queue left stored bound =>
    obtain ⟨-,-,-,hleft⟩ := (h.tracked j).held held
    have hids : s'.leftIds = s.leftIds := by rw [leftIds,left]; rfl
    refine ⟨fun k => ?_,fun k hk hkl => ?_,fun k hk => ?_,fun v k hv => ?_⟩
    · have hu := workersAt_holds held worker k
      have ht : (holding k t).toNat = if k = j then 1 else 0 := by
        rw [holding,job]
        by_cases hk : k = j
        · simp [hk]
        · simp [hk,Ne.symm hk]
      refine (h.tracked k).same ?_ (by rw [hids]) (by rw [queue])
      rw [active,active,queue]
      omega
    · rw [queue]
      exact h.offers k (ho ▸ hk) (hids ▸ hkl)
    · rw [hids] at hk
      refine (h.left k hk).congr (stored k ?_)
      rintro rfl
      exact absurd (List.count_pos_iff.mpr hk) (by omega)
    · rw [worker] at hv
      by_cases hvw : v = w
      · rw [hvw,Function.update_self] at hv
        have hjk : t.job = some k := by rw [hv]; rfl
        obtain rfl : k = j := Option.some.inj (hjk.symm.trans job)
        exact bound hv
      · rw [Function.update_of_ne hvw] at hv
        refine (h.bound v k hv).congr (stored k ?_)
        -- Another worker is bound to it, and this one holds it.
        rintro rfl
        exact hvw ((h.tracked k).holder held (by rw [Holds,hv]; rfl))
  | pushes j held worker queue left stored =>
    obtain ⟨hk,-⟩ := (h.tracked j).held held
    have hids : s'.leftIds = s.leftIds := by rw [leftIds,left]; rfl
    have hknown : s'.queue.known = s.queue.known := by
      rw [queue]
      exact Finset.insert_eq_of_mem hk
    refine ⟨fun k => ?_,fun k hko hkl => ?_,fun k hkl => ?_,h.bound_update worker stored nofun⟩
    · have hu := workersAt_idle held worker k
      refine (h.tracked k).same ?_ (by rw [hids]) (by rw [hknown])
      rw [active,active,queue]
      simp only [JobQueue.pushFront,List.count_cons,beq_iff_eq]
      by_cases hkj : k = j
      · simp only [hkj,if_true] at hu ⊢
        omega
      · simp only [hkj,Ne.symm hkj,if_false] at hu ⊢
        omega
    · rw [hknown]
      exact h.offers k (ho ▸ hko) (hids ▸ hkl)
    · rw [hids] at hkl
      exact (h.left k hkl).congr (congrFun stored k)
  | forgets j held worker queue left stored =>
    obtain ⟨-,hq,hone,hleft⟩ := (h.tracked j).held held
    refine h.letGo (.inr ⟨w,worker⟩) (fun k => ?_) (fun k => ?_) (by rw [queue]; rfl)
      (fun k hk => ho ▸ hk) stored
    · have hu := workersAt_idle held worker k
      rw [active,active,queue]
      show s.queue.jobs.count k+_ = _
      split
      next hkj => subst hkj; simp at hu; omega
      next hkj => simp only [hkj,if_false] at hu; omega
    · rw [leftIds,left]
      split
      next hkj => exact hkj ▸ hleft
      next => rfl
  | leaves j included held worker queue left stored =>
    have hh : s.Holds w j := by rw [Holds,held]; rfl
    have hids : s'.leftIds = j :: s.leftIds := by rw [leftIds,left]; rfl
    obtain ⟨hk,hq,hone,hleft⟩ := (h.tracked j).held hh
    refine ⟨fun k => ?_,fun k hko hkl => ?_,fun k hkl => ?_,h.bound_update worker stored nofun⟩
    · have hu := workersAt_idle hh worker k
      by_cases hkj : k = j
      · subst hkj
        have ha : s'.active k = 0 := by
          rw [active,queue]
          simp at hu
          omega
        have hl : s'.leftIds.count k = 1 := by
          rw [hids,List.count_cons_self,hleft]
        exact ⟨by omega,fun hpos => absurd hpos (by omega),fun _ => by omega⟩
      · refine (h.tracked k).same ?_ ?_ (by rw [queue])
        · rw [active,active,queue]
          simp only [hkj,if_false] at hu
          omega
        · rw [hids,List.count_cons_of_ne (Ne.symm hkj)]
    · rw [queue]
      rw [hids] at hkl
      rcases List.mem_cons.mp hkl with rfl | hkl
      · exact hk
      · exact h.offers k (ho ▸ hko) hkl
    · rw [hids] at hkl
      rcases List.mem_cons.mp hkl with rfl | hkl
      · exact (h.bound w k held).congr (congrFun stored k)
      · exact (h.left k hkl).congr (congrFun stored k)

omit [Fintype S] in
theorem workerStep_offers (c : DeskConfig) (s : Desk S) (w : S) (e : DeskEvent S) :
    (s.workerStep c w e).offers = s.offers := by
  unfold workerStep
  split <;> (try dsimp only) <;> (try split) <;> rfl

omit [Fintype S] in
/-- Workers leave what is to be counted and the operator's cancels alone. -/
theorem workerStep_frame (c : DeskConfig) (s : Desk S) (w : S) (e : DeskEvent S) :
    (s.workerStep c w e).counting = s.counting ∧ (s.workerStep c w e).cancels = s.cancels := by
  unfold workerStep
  split <;> (try dsimp only) <;> (try split) <;> exact ⟨rfl,rfl⟩

/-- A worker takes the front. -/
theorem Orderly.pop (h : Orderly s) (hw : s.worker w = .idle) : Orderly (s.pop w) := by
  unfold Desk.pop JobQueue.tryPop
  cases hjobs : s.queue.jobs with
  | nil => exact h
  | cons j rest =>
    simp only [List.head?_cons,List.tail_cons]
    refine ⟨fun k => ?_,h.offers,fun k hk => h.left k hk,?_⟩
    · refine (h.tracked k).same ?_ rfl Iff.rfl
      have hu : (s.goto w (.popped j)).workersAt (holding k)+_ = _ := workersAt_update rfl _
      have hidle : holding k .idle = false := by simp [holding,TaskAt.job]
      have hpop : holding k (.popped j) = decide (j = k) := by simp [holding,TaskAt.job]
      rw [hw,hidle,hpop] at hu
      show rest.count k+(s.goto w (.popped j)).workersAt (holding k) = _
      rw [active,hjobs,List.count_cons]
      by_cases hjk : j = k
      · simp [hjk] at hu ⊢
        omega
      · simp [hjk] at hu ⊢
        omega
    · exact h.bound_update rfl rfl nofun

omit [DecidableEq S] in
/-- A row that is taken is not known, and not left either. -/
theorem Orderly.admitJob (h : Orderly s) (hj : j ∈ s.offers) : Orderly (s.admitJob j) := by
  have hoff (k : JobId) (hk : k ∈ (s.admitJob j).offers) : k ∈ s.offers := List.mem_of_mem_erase hk
  by_cases hq : s.queue.admits j = .queued
  · have hfresh := (JobQueue.admits_eq_queued.mp hq).1
    have hjobs : (s.admitJob j).queue.jobs = s.queue.jobs ++ [j] := by
      show (s.queue.admitJob j).jobs = _
      rw [JobQueue.admit_of_queued hq]
    have hknown : (s.admitJob j).queue.known = insert j s.queue.known := by
      show (s.queue.admitJob j).known = _
      rw [JobQueue.admit_of_queued hq]
    have ha (k : JobId) : (s.admitJob j).active k = s.active k+if k = j then 1 else 0 := by
      show (s.admitJob j).queue.jobs.count k+s.workersAt (holding k) = _
      rw [active,hjobs,List.count_append,List.count_singleton]
      by_cases hkj : k = j
      · simp [hkj]
        omega
      · simp [hkj,Ne.symm hkj]
    have hzero : s.active j = 0 := by
      by_contra hne
      exact hfresh ((h.tracked j).known (Nat.pos_of_ne_zero hne))
    have hleft : s.leftIds.count j = 0 :=
      List.count_eq_zero.mpr fun hl => hfresh (h.offers j hj hl)
    refine ⟨fun k => ?_,fun k hk hl => ?_,h.left,h.bound⟩
    · by_cases hkj : k = j
      · subst hkj
        have hak := ha k
        rw [if_pos rfl,hzero] at hak
        refine ⟨?_,fun _ => ?_,fun _ => ?_⟩
        · show (s.admitJob k).active k+s.leftIds.count k ≤ 1
          omega
        · rw [hknown]
          exact Finset.mem_insert_self ..
        · omega
      · refine (h.tracked k).same ?_ rfl ?_
        · rw [ha,if_neg hkj,Nat.add_zero]
        · rw [hknown,Finset.mem_insert]
          exact or_iff_right hkj
    · rw [hknown]
      exact Finset.mem_insert_of_mem (h.offers k (hoff k hk) hl)
  · obtain ⟨hjobs,hknown⟩ := JobQueue.admit_of_not_queued hq
    exact h.frame hjobs hknown rfl (fun _ => rfl) (fun k hk => .inl (hoff k hk)) fun _ hp => hp

/-- An operator takes a job out of the queue. -/
theorem Orderly.cancel (h : Orderly s) (j : JobId) : Orderly (s.cancel j) := by
  by_cases hj : j ∈ s.queue.jobs
  · have hq : s.queue.remove j =
        { s.queue with jobs := s.queue.jobs.filter (· ≠ j), known := s.queue.known.erase j } :=
      if_pos (decide_eq_true hj)
    have hone := (h.tracked j).once
    have hpos := List.count_pos_iff.mpr hj
    unfold active at hone
    refine h.letGo (j := j) (.inl rfl) (fun k => ?_) (fun k => ?_) ?_ (fun _ hk => hk) rfl
    · show (s.queue.remove j).jobs.count k+s.workersAt (holding k) = _
      rw [hq]
      split
      next hkj =>
        subst hkj
        have hgone : (s.queue.jobs.filter (· ≠ k)).count k = 0 := by
          rw [List.count_eq_zero]
          simp
        show (s.queue.jobs.filter (· ≠ k)).count k+s.workersAt (holding k) = 0
        omega
      next hkj =>
        rw [active]
        congr 1
        exact List.count_filter (by simpa using hkj)
    · split
      next hkj =>
        subst hkj
        show s.leftIds.count k = 0
        omega
      next => rfl
    · show (s.queue.remove j).known = _
      rw [hq]
  · have hq : s.queue.remove j = s.queue := if_neg (by simpa [JobQueue.isWaiting] using hj)
    refine h.frame ?_ ?_ rfl (fun _ => rfl) (fun _ hk => .inl hk) fun _ hp => hp
    · show (s.queue.remove j).jobs = _
      rw [hq]
    · show (s.queue.remove j).known = _
      rw [hq]

omit [Fintype S] in
theorem workerStep_window (c : DeskConfig) (s : Desk S) (w : S) (e : DeskEvent S) :
    (s.workerStep c w e).queue.window = s.queue.window := by
  unfold workerStep
  split <;> (try dsimp only) <;> (try split) <;> rfl

omit [Fintype S] in
theorem step_window (c : DeskConfig) (s : Desk S) (e : DeskEvent S) :
    (s.step c e).queue.window = s.queue.window := by
  cases e with
  | submit j =>
    show (s.submit c j).queue.window = _
    unfold Desk.submit
    split <;> rfl
  | admitJob j => exact JobQueue.admit_window s.queue j
  | pop w =>
    show (s.pop w).queue.window = _
    unfold Desk.pop
    split
    next hq => exact (congrArg (·.2.window) hq).symm
    · rfl
  | cancel j =>
    show (s.queue.remove j).window = _
    unfold JobQueue.remove
    split <;> rfl
  | cancelStore j waiting =>
    show (s.cancelStore j waiting).queue.window = _
    unfold Desk.cancelStore
    dsimp only
    split <;> rfl
  | sweep | resetOverflow | count | cancelLost | cancelCount | settle | accountMoved
  | accountEnded => rfl
  | putBack w | start w | fail w | retry w | send w | bind w | notBound w | void w _
  | mined w _ _ | leave w | finish w | release w => exact workerStep_window c s w _

omit [DecidableEq S] [Fintype S] in
theorem put_past {k : JobId} {st : StoredAt S} (hst : st ≠ .queued) (h : s.Past k) :
    (s.put j st).Past k := by
  by_cases hk : k = j
  · have hself : (s.put j st).stored k = some st := by rw [hk]; exact Function.update_self ..
    exact ⟨by rw [hself]; nofun,by rw [hself]; exact fun heq => hst (Option.some.inj heq)⟩
  · exact h.congr (Function.update_of_ne hk ..)

omit [DecidableEq S] in
/-- A row that the store has as queued, or not at all, is not of a job that was left. -/
theorem Orderly.not_left (h : Orderly s) (hj : s.stored j = none ∨ s.stored j = some .queued) :
    j ∉ s.leftIds := fun hl => hj.elim (h.left j hl).1 (h.left j hl).2

omit [DecidableEq S] in
theorem Orderly.submit (h : Orderly s) (c : DeskConfig) (hj : s.stored j = none) :
    Orderly (s.submit c j) := by
  unfold Desk.submit
  split
  · exact h
  · refine h.frame rfl rfl rfl (fun _ => rfl) (fun k hk => ?_) fun k hp => ?_
    · rcases List.mem_cons.mp hk with rfl | hk
      · exact .inr (h.not_left (.inl hj))
      · exact .inl hk
    · -- A new row is of no job that is past its queue.
      have hkj : k ≠ j := by rintro rfl; exact hp.1 hj
      exact hp.congr (Function.update_of_ne hkj ..)

theorem Orderly.cancelStore (h : Orderly s) (j : JobId) (waiting : Bool) :
    Orderly (s.cancelStore j waiting) := by
  unfold Desk.cancelStore
  dsimp only
  split
  · exact h.frame rfl rfl rfl (fun _ => rfl) (fun _ hk => .inl hk) fun k hp =>
      put_past nofun hp
  · exact h.frame rfl rfl rfl (fun _ => rfl) (fun _ hk => .inl hk) fun _ hp => hp

omit [Fintype S] in
/-- The jobs that were left, without one of them. -/
theorem leftIds_erase {job : LeftJob S} (hjob : job ∈ s.left) (k : JobId) :
    s.leftIds.count k = ((s.left.erase job).map (·.id)).count k+if k = job.id then 1 else 0 := by
  have hperm := (List.perm_cons_erase hjob).map (·.id)
  rw [leftIds,hperm.count_eq,List.map_cons,List.count_cons]
  by_cases hk : k = job.id
  · simp [hk]
  · simp [hk,Ne.symm hk]

theorem Orderly.accountMoved (h : Orderly s) {job : LeftJob S} (hjob : job ∈ s.left) :
    Orderly (s.accountMoved job) := by
  refine h.frame rfl rfl rfl (fun k => ?_) (fun _ hk => .inl hk) fun _ hp => hp
  show (job.id :: (s.left.erase job).map (·.id)).count k = _
  rw [leftIds_erase hjob k,List.count_cons]
  by_cases hk : k = job.id
  · simp [hk]
  · simp [hk,Ne.symm hk]

theorem Orderly.accountEnded (h : Orderly s) {job : LeftJob S} (hjob : job ∈ s.left)
    (outcome : Outcome) : Orderly (s.accountEnded job outcome) := by
  have hone := (h.tracked job.id).once
  have herase := leftIds_erase hjob job.id
  rw [if_pos rfl] at herase
  refine h.letGo (j := job.id) (.inl rfl) (fun k => ?_) (fun k => ?_) rfl (fun _ hk => hk) rfl
  · show s.active k = _
    split
    next hk =>
      subst hk
      omega
    next => rfl
  · show ((s.left.erase job).map (·.id)).count k = _
    split
    next hk =>
      subst hk
      omega
    next hk =>
      rw [leftIds_erase hjob k,if_neg hk]
      rfl

theorem Orderly.step (c : DeskConfig) (h : Orderly s) {e : DeskEvent S} (he : s.Allowed e) :
    Orderly (s.step c e) := by
  have hwork (w : S) : Orderly (s.workerStep c w e) :=
    h.task (workerStep_effect c s w e) (workerStep_offers c s w e)
  cases e with
  | submit j => exact h.submit c he
  | sweep page =>
    refine h.frame rfl rfl rfl (fun _ => rfl) (fun k hk => ?_) fun _ hp => hp
    rcases List.mem_append.mp hk with hk | hk
    · exact .inr (h.not_left (.inr (he.2 k hk)))
    · exact .inl hk
  | resetOverflow | count j | cancelLost j waiting | cancelCount j waiting =>
    exact h.frame rfl rfl rfl (fun _ => rfl) (fun _ hk => .inl hk) fun _ hp => hp
  | admitJob j => exact h.admitJob he
  | pop w => exact h.pop he.1
  | cancel j => exact h.cancel j
  | cancelStore j waiting => exact h.cancelStore j waiting
  | settle j st =>
    exact h.frame rfl rfl rfl (fun _ => rfl) (fun _ hk => .inl hk) fun k hp => put_past he.1 hp
  | accountMoved job => exact h.accountMoved he
  | accountEnded job outcome => exact h.accountEnded he outcome
  | putBack w | start w | fail w | retry w | send w | bind w | notBound w | void w _
  | mined w _ _ | leave w | finish w | release w => exact hwork w

end Moves

/-- What a leader finds in the store when it starts: each live job once, and bound. -/
structure Booted (stored : JobId → Option (StoredAt S)) (left : List (LeftJob S)) : Prop where
  nodup : (left.map (·.id)).Nodup
  past : ∀ job ∈ left, stored job.id ≠ none ∧ stored job.id ≠ some .queued

omit [DecidableEq S] in
theorem Orderly.boot {stored : JobId → Option (StoredAt S)} {left : List (LeftJob S)}
    (h : Booted stored left) (window : Nat) (stats : Stats S) :
    Orderly (Desk.boot window stored left stats) where
  tracked j := by
    have hidle : (Desk.boot window stored left stats).workersAt (holding j) = 0 := by
      simp [workersAt,Desk.boot,holding,TaskAt.job]
    have hactive : (Desk.boot window stored left stats).active j = 0 := by
      rw [active,hidle]
      rfl
    refine ⟨?_,fun hpos => absurd hpos (by omega),fun hk => absurd hk (Finset.notMem_empty j)⟩
    rw [hactive,Nat.zero_add]
    exact List.nodup_iff_count_le_one.mp h.nodup j
  offers j hj := absurd hj List.not_mem_nil
  left j hj := by
    obtain ⟨job,hjob,rfl⟩ := List.mem_map.mp hj
    exact h.past job hjob
  bound _ _ := nofun

/-- Whatever the order of the steps, from any store a leader can start with. -/
theorem never_queued_twice (c : DeskConfig) (window : Nat)
    {stored : JobId → Option (StoredAt S)} {left : List (LeftJob S)} (stats : Stats S)
    (hboot : Booted stored left) {s : Desk S}
    (hs : (machine c).Reaches (boot window stored left stats) s) :
    s.queue.jobs.Nodup ∧ (∀ j ∈ s.queue.jobs, j ∈ s.queue.known) ∧
      (∀ j w, s.Holds w j → j ∉ s.queue.jobs ∧ ∀ v, s.Holds v j → v = w) ∧
      (∀ j, (s.admitJob j).queue.jobs ≠ s.queue.jobs → (s.admitJob j).queue.jobs.length ≤ max window 1) ∧
      ∀ j, s.stored j = some .queued → j ∈ s.queue.known →
        j ∈ s.queue.jobs ∨ ∃ w, s.Holds w j := by
  obtain ⟨horder,hwindow⟩ : Orderly s ∧ s.queue.window = max window 1 :=
    hs.invariant (I := fun t => Orderly t ∧ t.queue.window = max window 1)
      ⟨.boot hboot window stats,rfl⟩ fun t e ht he =>
      ⟨ht.1.step c he,(step_window c t e).trans ht.2⟩
  refine ⟨?_,fun j hj => ?_,fun j w hw => ?_,fun j hne => ?_,fun j hst hk => ?_⟩
  · refine List.nodup_iff_count_le_one.mpr fun j => ?_
    have hone := (horder.tracked j).once
    unfold active at hone
    omega
  · refine (horder.tracked j).known ?_
    exact Nat.add_pos_left (List.count_pos_iff.mpr hj) _
  · obtain ⟨-,hq,-⟩ := (horder.tracked j).held hw
    exact ⟨List.count_eq_zero.mp hq,fun v hv => (horder.tracked j).holder hw hv⟩
  · by_cases hq : s.queue.admits j = .queued
    · have hroom := (JobQueue.admits_eq_queued.mp hq).2
      show (s.queue.admitJob j).jobs.length ≤ _
      rw [JobQueue.admit_of_queued hq,List.length_append,List.length_singleton]
      omega
    · exact absurd (JobQueue.admit_of_not_queued hq).1 hne
  · -- It is known, and what was left is past the queue.
    have hpos := (horder.tracked j).placed hk
    rw [List.count_eq_zero.mpr (horder.not_left (.inr hst)),Nat.add_zero] at hpos
    rcases Nat.eq_zero_or_pos (s.queue.jobs.count j) with hzero | hq
    · refine .inr ?_
      rw [active,hzero,Nat.zero_add] at hpos
      obtain ⟨w,hw⟩ := Finset.card_pos.mp hpos
      have hheld : s.Holds w j := by simpa [holding,Holds] using (Finset.mem_filter.mp hw).2
      exact ⟨w,hheld⟩
    · exact .inl (List.count_pos_iff.mp hq)

/-- One job waits in the store and one was left in flight; a second waits when a page with the
first is offered again. -/
def overlap : List (DeskEvent Bool) :=
  [.sweep [1],.admitJob 1,.count 1,.submit 3,.admitJob 3,.pop true,.start true,.sweep [1],.admitJob 1,
    .sweep [3],.admitJob 3]

def overlapStore (j : JobId) : Option (StoredAt Bool) :=
  if j = 1 then some .queued else if j = 2 then some (.sent false) else none

def overlapBoot : Desk Bool := boot 1 overlapStore [⟨2,false,false⟩] ⟨fun _ => ⟨fun _ => 0,0⟩⟩

theorem never_queued_twice_overlap :
    Booted overlapStore [⟨2,false,false⟩] ∧ (machine ⟨5,false⟩).Runs overlapBoot overlap ∧
      (overlap.foldl (step ⟨5,false⟩) overlapBoot).queue.jobs = [3] ∧
      (overlap.foldl (step ⟨5,false⟩) overlapBoot).Holds true 1 ∧
      ∀ v, (overlap.foldl (step ⟨5,false⟩) overlapBoot).Holds v 1 → v = true := by
  have hboot : Booted overlapStore [⟨2,false,false⟩] := ⟨by decide,by decide⟩
  have hrun : (machine ⟨5,false⟩).Runs overlapBoot overlap := by decide
  have hheld : (overlap.foldl (step ⟨5,false⟩) overlapBoot).Holds true 1 := by
    unfold Holds
    decide
  have hall := never_queued_twice ⟨5,false⟩ 1 ⟨fun _ => ⟨fun _ => 0,0⟩⟩ hboot hrun.reaches
  exact ⟨hboot,hrun,by decide,hheld,(hall.2.2.1 1 true hheld).2⟩

end Desk

end GumEngine
