import GumEngine.Laws.Totals

/-!
# Taking an inclusion back

`demote_inclusion` is meant to undo `settle_inclusion`. It does so for the mined attempt
and for the amounts; what the settlement wrote elsewhere is not written back.
-/

namespace GumEngine
open Relational Transition

/-- Id and status of every attempt of a nonce. -/
def Store.slotStatuses (s : Store) (k : Slot) : List (Uuid × AttemptStatus) :=
  (s.txAttempts.rows.filter fun r => r.slot = k).map fun r => (r.id,r.status)

/-- `s'` is `s` again, as far as an inclusion of `a` had changed it. -/
structure Restored (s : Store) (a : Attempt) (s' : Store) : Prop where
  attempts : s'.slotStatuses a.slot = s.slotStatuses a.slot
  jobs : s'.jobs.rows.map (fun j => (j.id,j.status)) = s.jobs.rows.map fun j => (j.id,j.status)
  topups : s'.topups.rows.map (fun t => (t.id,t.status)) =
    s.topups.rows.map fun t => (t.id,t.status)
  gas : ∀ key, s'.gasOf key = s.gasOf key
  live : ∀ chainId signer l, loadLiveAttemptsFor s chainId signer = .ok l →
    ∃ l', loadLiveAttemptsFor s' chainId signer = .ok l' ∧
      ∀ x ∈ l, ∃ y ∈ l', y.id = x.id ∧ y.txHash = x.txHash ∧ y.rawTx = x.rawTx

/-- Nothing but the attempt and its counters is touched by the inclusion: `a` is the only
broadcast attempt of its nonce, its job is not being cancelled, its top-up not yet mined. -/
structure Undoable (s : Store) (a : Attempt) : Prop where
  alone : ∀ r ∈ s.txAttempts.rows, r.slot = a.slot → r.id ≠ a.id → r.status ≠ .broadcast
  job : a.purpose = .job → ∀ j ∈ s.jobs.rows, a.owner = .job j.id → j.status = .sent
  topup : ∀ t ∈ s.topups.rows, a.owner = .topup t.id → t.status ≠ .included

section Reorg

variable {s s' : Store} {a : Attempt} {inc : Inclusion}

/-- The row of an attempt after the inclusion of `a` and its demotion. -/
def reorgRow (a : Attempt) (inc : Inclusion) (r : AttemptRow) : AttemptRow :=
  demoteRow a (settleRow a inc r)

def reorgJob (a : Attempt) (inc : Inclusion) (j : JobRow) : JobRow :=
  demoteJob a (includeJob a inc j)

/-- An inclusion of `a` followed by its demotion. -/
structure Reorged (s : Store) (a : Attempt) (inc : Inclusion) (s' : Store) : Prop where
  found : ∃ r ∈ s.txAttempts.rows, r.id = a.id ∧ r.status = .broadcast
  attempts : s'.txAttempts.rows = s.txAttempts.rows.map (reorgRow a inc)
  owner : a.purpose = .job → ∀ id, a.owner = .job id →
    ∃ j ∈ s.jobs.rows, j.id = id ∧ j.status ∈ [JobStatus.sent,.cancelling]
  jobs : s'.jobs.rows = s.jobs.rows.map (reorgJob a inc)
  topups : s'.topups.rows = s.topups.rows.map fun t => demoteTopup a (includeTopup a t)
  gas : ∀ key, s'.gasOf key = s.gasOf key

theorem reorged {m : Store}
    (h1 : settleInclusion s a inc false false = .ok (.applied,m))
    (h2 : demoteInclusion m a = (.applied,s')) : Reorged s a inc s' := by
  rcases settleInclusion_spec h1 with ⟨hx,-⟩ | ⟨-,m',hs,hm⟩
  · cases hx
  · rw [if_neg (by decide)] at hm
    subst hm
    rcases demoteInclusion_spec m a with hd | ⟨-,hd⟩
    · rw [hd] at h2
      cases h2
    · rw [h2] at hd
      refine ⟨hs.found,?_,hs.owner,?_,?_,?_⟩
      · rw [hd.attempts,hs.attempts,List.map_map]
        rfl
      · rw [hd.jobs,hs.jobs,List.map_map]
        rfl
      · rw [hd.topups,hs.topups,List.map_map]
        rfl
      · -- the demotion reads back the very amounts the inclusion stored
        obtain ⟨r₀,hr₀,hid₀,hb₀⟩ := hs.found
        obtain ⟨x,hx,hxid,hxin,hgas⟩ := hd.gas
        have hF₀ : settleRow a inc r₀ = r₀.toIncluded inc := by
          simp [settleRow,rewrite,AttemptRow.whereIn,AttemptRow.whereSibling,hid₀,hb₀,
            AttemptRow.toIncluded]
        have hx₀ : x = r₀.toIncluded inc := by
          rw [← hF₀]
          refine id_unique hx (by rw [hs.attempts]; exact List.mem_map_of_mem hr₀) ?_
          rw [hxid,(settleRow_same a inc r₀).id,hid₀]
        subst hx₀
        intro key
        exact gasOf_add_sub hs.gas hgas

theorem reorgRow_status (hn : ∃ r ∈ s.txAttempts.rows, r.id = a.id ∧ r.status = .broadcast)
    {r : AttemptRow} (hr : r ∈ s.txAttempts.rows) :
    (reorgRow a inc r).status =
      if r.slot = a.slot ∧ r.id ≠ a.id ∧ r.status = .broadcast then .replaced else r.status := by
  obtain ⟨r₀,hr₀,hid₀,hb₀⟩ := hn
  have hid := (settleRow_same a inc r).id
  rw [reorgRow,demoteRow_status,settleRow_status,hid]
  by_cases hr' : r.id = a.id
  · obtain rfl := id_unique hr hr₀ (hr'.trans hid₀.symm)
    simp [hid₀,hb₀]
  · simp only [hr',false_and,if_false,ne_eq,not_false_iff,true_and]
    by_cases hb : r.status = .broadcast <;> by_cases hs : r.slot = a.slot <;> simp [hb,hs]

theorem reorgRow_same (a : Attempt) (inc : Inclusion) (r : AttemptRow) :
    (reorgRow a inc r).Same r :=
  (demoteRow_same a _).trans (settleRow_same a inc r)

theorem reorgRow_rawTx (a : Attempt) (inc : Inclusion) (r : AttemptRow) :
    (reorgRow a inc r).rawTx = r.rawTx := by
  unfold reorgRow demoteRow settleRow rewrite
  (repeat' split) <;> rfl

theorem reorgJob_status {j : JobRow} (h : a.owner = .job j.id → a.purpose = .job →
      j.status ∈ [JobStatus.sent,.cancelling]) :
    (reorgJob a inc j).status =
      if a.owner = .job j.id ∧ a.purpose = .job then .sent else j.status := by
  unfold reorgJob
  by_cases ho : a.owner = .job j.id ∧ a.purpose = .job
  · have hin : (j.toIncluded inc).status ∈ [JobStatus.included] := List.mem_singleton.mpr rfl
    have ho' : a.owner = .job (j.toIncluded inc).id := ho.1
    rw [if_pos ho,includeJob,if_pos ho.2,ownJob_of ho.1 (h ho.1 ho.2),demoteJob,if_pos ho.2,
      ownJob_of ho' hin]
    rfl
  · rw [if_neg ho,includeJob_other ho,demoteJob_other ho]

theorem reorgJob_id (a : Attempt) (inc : Inclusion) (j : JobRow) : (reorgJob a inc j).id = j.id :=
  (demoteJob_id a _).trans (includeJob_id a inc j)

theorem reorgTopup_status (t : TopupRow) :
    (demoteTopup a (includeTopup a t)).status =
      if a.owner = .topup t.id ∧ t.status = .included then .sent else t.status := by
  by_cases ho : a.owner = .topup t.id <;> by_cases hs : t.status = .sent <;>
    by_cases hi : t.status = .included <;> simp_all [demoteTopup,includeTopup,rewrite]

theorem reorgTopup_id (t : TopupRow) : (demoteTopup a (includeTopup a t)).id = t.id := by
  unfold demoteTopup includeTopup rewrite
  (repeat' split) <;> rfl

theorem Reorged.slotStatuses_iff (h : Reorged s a inc s') :
    s'.slotStatuses a.slot = s.slotStatuses a.slot ↔
      ∀ r ∈ s.txAttempts.rows, r.slot = a.slot → r.id ≠ a.id → r.status ≠ .broadcast := by
  have hrows : s'.slotStatuses a.slot = (s.txAttempts.rows.filter fun r => r.slot = a.slot).map
      fun r => (r.id,(reorgRow a inc r).status) := by
    unfold Store.slotStatuses
    rw [h.attempts,List.filter_map,List.map_map]
    have hslot : ((fun r : AttemptRow => decide (r.slot = a.slot)) ∘ reorgRow a inc) =
        fun r => decide (r.slot = a.slot) := by
      funext r
      simp only [Function.comp_apply,(reorgRow_same a inc r).slot]
    rw [hslot]
    apply List.map_congr_left
    intro r _
    simp only [Function.comp_apply,(reorgRow_same a inc r).id]
  rw [hrows,Store.slotStatuses,List.map_inj_left]
  constructor
  · intro hall r hr hs hid hb
    have heq := hall r (List.mem_filter.mpr ⟨hr,by simpa using hs⟩)
    rw [reorgRow_status h.found hr,if_pos ⟨hs,hid,hb⟩,hb] at heq
    cases heq
  · intro hall r hr
    obtain ⟨hr,hs⟩ := List.mem_filter.mp hr
    have hs : r.slot = a.slot := by simpa using hs
    rw [reorgRow_status h.found hr,if_neg fun hx => hall r hr hs hx.2.1 hx.2.2]

theorem Reorged.jobs_iff (h : Reorged s a inc s') :
    s'.jobs.rows.map (fun j => (j.id,j.status)) = s.jobs.rows.map (fun j => (j.id,j.status)) ↔
      (a.purpose = .job → ∀ j ∈ s.jobs.rows, a.owner = .job j.id → j.status = .sent) := by
  have hlive : ∀ j ∈ s.jobs.rows, a.owner = .job j.id → a.purpose = .job →
      j.status ∈ [JobStatus.sent,.cancelling] := by
    intro j hj ho hp
    obtain ⟨j',hj',hid,hst⟩ := h.owner hp j.id ho
    exact same_job hj hj' hid ▸ hst
  rw [h.jobs,List.map_map,List.map_inj_left]
  constructor
  · intro hall hp j hj ho
    have heq := congrArg Prod.snd (hall j hj)
    simp only [Function.comp_apply] at heq
    rw [reorgJob_status (hlive j hj),if_pos ⟨ho,hp⟩] at heq
    exact heq.symm
  · intro hall j hj
    simp only [Function.comp_apply]
    rw [reorgJob_id,reorgJob_status (hlive j hj)]
    split
    · next hx => rw [hall hx.2 j hj hx.1]
    · rfl

theorem Reorged.topups_iff (h : Reorged s a inc s') :
    s'.topups.rows.map (fun t => (t.id,t.status)) =
        s.topups.rows.map (fun t => (t.id,t.status)) ↔
      ∀ t ∈ s.topups.rows, a.owner = .topup t.id → t.status ≠ .included := by
  rw [h.topups,List.map_map,List.map_inj_left]
  constructor
  · intro hall t ht ho hi
    have heq := congrArg Prod.snd (hall t ht)
    simp only [Function.comp_apply] at heq
    rw [reorgTopup_status,if_pos ⟨ho,hi⟩,hi] at heq
    cases heq
  · intro hall t ht
    simp only [Function.comp_apply]
    rw [reorgTopup_id,reorgTopup_status,if_neg fun hx => hall t ht hx.1 hx.2]

/-- With its siblings untouched, every live attempt is loaded again. -/
theorem Reorged.live (h : Reorged s a inc s')
    (halone : ∀ r ∈ s.txAttempts.rows, r.slot = a.slot → r.id ≠ a.id → r.status ≠ .broadcast)
    {chainId : ChainId} {signer : Address} {l : List Attempt}
    (hl : loadLiveAttemptsFor s chainId signer = .ok l) :
    ∃ l', loadLiveAttemptsFor s' chainId signer = .ok l' ∧
      ∀ x ∈ l, ∃ y ∈ l', y.id = x.id ∧ y.txHash = x.txHash ∧ y.rawTx = x.rawTx := by
  have hst : ∀ r ∈ s.txAttempts.rows, (reorgRow a inc r).status = r.status := by
    intro r hr
    rw [reorgRow_status h.found hr,if_neg fun hx => halone r hr hx.1 hx.2.1 hx.2.2]
  have hmem : ∀ r, r ∈ s.liveRows chainId signer → reorgRow a inc r ∈ s'.liveRows chainId signer := by
    intro r hr
    obtain ⟨hr,hc,hs,hlive⟩ := mem_liveRows.mp hr
    refine mem_liveRows.mpr ⟨by rw [h.attempts]; exact List.mem_map_of_mem hr,?_,?_,?_⟩
    · rw [(reorgRow_same a inc r).chainId,hc]
    · rw [(reorgRow_same a inc r).signer,hs]
    · simpa only [AttemptRow.live,hst r hr] using hlive
  obtain ⟨hin,-⟩ := mem_mapM hl
  have howner : ∀ r, (reorgRow a inc r).owner = r.owner := by
    intro r
    rw [AttemptRow.owner,AttemptRow.owner,(reorgRow_same a inc r).jobId,
      (reorgRow_same a inc r).topupId]
  have hload : ∀ x ∈ s'.liveRows chainId signer, ∃ y, attemptRow x = .ok y := by
    intro x hx
    obtain ⟨hx,hc,hs,hlive⟩ := mem_liveRows.mp hx
    rw [h.attempts] at hx
    obtain ⟨r,hr,rfl⟩ := List.mem_map.mp hx
    have hrl : r ∈ s.liveRows chainId signer := by
      refine mem_liveRows.mpr ⟨hr,?_,?_,?_⟩
      · rw [← hc,(reorgRow_same a inc r).chainId]
      · rw [← hs,(reorgRow_same a inc r).signer]
      · simpa only [AttemptRow.live,hst r hr] using hlive
    obtain ⟨y,-,hy⟩ := hin r hrl
    exact attemptRow_loads ((howner r).trans (attemptRow_ok hy).1)
  obtain ⟨l',hl'⟩ := mapM_ok hload
  refine ⟨l',hl',?_⟩
  intro x hx
  obtain ⟨r,hr,hrx⟩ := (mem_mapM hl).2 x hx
  obtain ⟨y,hy,hry⟩ := (mem_mapM hl').1 _ (hmem r hr)
  obtain ⟨-,h1,h2,h3⟩ := attemptRow_ok hrx
  obtain ⟨-,h1',h2',h3'⟩ := attemptRow_ok hry
  refine ⟨y,hy,?_,?_,?_⟩
  · rw [h1',h1,(reorgRow_same a inc r).id]
  · rw [h2',h2,(reorgRow_same a inc r).txHash]
  · rw [h3',h3,reorgRow_rawTx]

/-- A demotion restores what the inclusion changed iff the inclusion changed nothing that
the demotion does not know of. -/
theorem demotion_restores_iff {m : Store}
    (h1 : settleInclusion s a inc false false = .ok (.applied,m))
    (h2 : demoteInclusion m a = (.applied,s')) : Restored s a s' ↔ Undoable s a := by
  have h := reorged h1 h2
  constructor
  · rintro ⟨ha,hj,ht,-,-⟩
    exact ⟨h.slotStatuses_iff.mp ha,h.jobs_iff.mp hj,h.topups_iff.mp ht⟩
  · rintro ⟨ha,hj,ht⟩
    exact ⟨h.slotStatuses_iff.mpr ha,h.jobs_iff.mpr hj,h.topups_iff.mpr ht,h.gas,
      fun _ _ _ hl => h.live ha hl⟩

/-- A settlement and a demotion that are both seen to be applied. -/
theorem reorg_run (inc : Inclusion) (h : (settleInclusion s a inc false false).toOption.map
      (fun p => (p.1,(demoteInclusion p.2 a).1)) = some (.applied,.applied)) :
    ∃ m s', settleInclusion s a inc false false = .ok (.applied,m) ∧
      demoteInclusion m a = (.applied,s') := by
  cases hs : settleInclusion s a inc false false with
  | error e => rw [hs] at h; cases h
  | ok p =>
    obtain ⟨st,m⟩ := p
    simp only [hs,Except.toOption,Option.map_some,Option.some.injEq,Prod.mk.injEq] at h
    obtain ⟨rfl,hd⟩ := h
    exact ⟨m,(demoteInclusion m a).2,rfl,Prod.ext hd rfl⟩

/-- A job whose first transaction was replaced by a dearer one, both in the mempool. -/
def siblingOps : List Op :=
  [.insertJob 1 Sample.request,.bindAttempt 0 (Sample.attempt 3 0 .job (.job 1)) .first,
    .bindAttempt 0 (Sample.attempt 4 0 .job (.job 1)) .replacement]

/-- The dearer transaction is mined and loses its block: the first one, which the new fork
may still mine, stays `replaced`. -/
theorem demotion_loses_sibling :
    ∃ s m s', pipeline.Reaches Store.empty s ∧
      settleInclusion s (Sample.attempt 4 0 .job (.job 1)) (Sample.inclusion 4 10 100)
        false false = .ok (.applied,m) ∧
      demoteInclusion m (Sample.attempt 4 0 .job (.job 1)) = (.applied,s') ∧
      ¬ Restored s (Sample.attempt 4 0 .job (.job 1)) s' := by
  have hrun : pipeline.Runs Store.empty siblingOps := by decide
  obtain ⟨m,s',h1,h2⟩ := reorg_run (s := siblingOps.foldl pipeline.step Store.empty)
    (a := Sample.attempt 4 0 .job (.job 1)) (Sample.inclusion 4 10 100) (by decide)
  refine ⟨_,m,s',hrun.reaches,h1,h2,?_⟩
  intro hres
  have halone := (reorged h1 h2).slotStatuses_iff.mp hres.attempts
  revert halone
  decide

theorem demotion_restores_single :
    ∃ s m s', settleInclusion s (Sample.attempt 3 0 .job (.job 1)) (Sample.inclusion 3 10 100)
        false false = .ok (.applied,m) ∧
      demoteInclusion m (Sample.attempt 3 0 .job (.job 1)) = (.applied,s') ∧
      Restored s (Sample.attempt 3 0 .job (.job 1)) s' := by
  obtain ⟨m,s',h1,h2⟩ := reorg_run (s := (siblingOps.take 2).foldl pipeline.step Store.empty)
    (a := Sample.attempt 3 0 .job (.job 1)) (Sample.inclusion 3 10 100) (by decide)
  exact ⟨_,m,s',h1,h2,(demotion_restores_iff h1 h2).mpr ⟨by decide,by decide,by decide⟩⟩

end Reorg

end GumEngine
