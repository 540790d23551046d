import GumEngine.Store.Effects

/-!
# One specification per operation

What a committed transaction did, in terms of the row functions. The operations are
unfolded here and nowhere else.
-/

namespace GumEngine
open Relational

variable {s s' : Store} {a : Attempt}

/-! ## Jobs, outbox and rollup -/

theorem JobRow.whereIn_eq_true {id : JobId} {st : List JobStatus} {j : JobRow} :
    j.whereIn id st = true ↔ j.id = id ∧ j.status ∈ st := by
  simp [JobRow.whereIn]

theorem JobsEffect.of_update {id : JobId} {st : List JobStatus} {f : JobRow → JobRow}
    (hq : ∀ j : JobRow, j.status ∈ st → j.Quiet (f j))
    (hj : s'.jobs.rows = s.jobs.rows.map (rewrite (JobRow.whereIn id st) f))
    (hd : s'.webhookDeliveries = s.webhookDeliveries)
    (hr : s'.statsRollup = s.statsRollup) : JobsEffect s s' := by
  by_cases h : ∃ j ∈ s.jobs.rows, j.whereIn id st = true
  · obtain ⟨j,hm,hp⟩ := h
    have hjid := JobRow.whereIn_eq_true.mp hp
    refine .quiet j (f j) hm (hq j hjid.2) ?_ hd hr
    rw [hj]
    exact Keyed.map_rewrite_one s.jobs hm hp fun x hx =>
      (JobRow.whereIn_eq_true.mp hx).1.trans hjid.1.symm
  · push Not at h
    exact .none (hj.trans (map_rewrite_none h)) hd hr

theorem JobsEffect.of_returning {id : JobId} {st : List JobStatus} {f : JobRow → JobRow}
    {hf : ∀ j, (f j).id = j.id} {job : JobRow} {jobs : Keyed JobRow.id} {event : WebhookEvent}
    (he : ∀ j : JobRow, j.status ∈ st → j.Emits event (f j))
    (hu : s.jobs.updateReturning (JobRow.whereIn id st) f hf = some (job,jobs))
    (hj : s'.jobs = jobs)
    (hd : s'.webhookDeliveries = enqueue s.webhookDeliveries job event job.webhookSeq false)
    (hr : s'.statsRollup = job.rollupKey.elim s.statsRollup (bumpRollup s.statsRollup)) :
    JobsEffect s s' := by
  obtain ⟨⟨j,hm,hp,rfl⟩,rfl⟩ := Table.updateReturning_eq_some hu
  have hjid := JobRow.whereIn_eq_true.mp hp
  refine .emits event j (f j) hm (he j hjid.2) ?_ hd hr
  rw [hj,Table.update_rows]
  exact Keyed.map_rewrite_one s.jobs hm hp fun x hx =>
    (JobRow.whereIn_eq_true.mp hx).1.trans hjid.1.symm

theorem JobRow.emits_failed {st : List JobStatus} (hst : ∀ x ∈ st, x.isTerminal = false)
    (failure : JobFailure) (message : String) (j : JobRow) (hj : j.status ∈ st) :
    j.Emits .failed (j.toFailed failure message) :=
  ⟨rfl,rfl,rfl,hst _ hj,rfl⟩

theorem JobRow.emits_included (inc : Inclusion) (j : JobRow)
    (hj : j.status ∈ [JobStatus.sent,.cancelling]) : j.Emits .included (j.toIncluded inc) := by
  refine ⟨rfl,rfl,rfl,?_,rfl⟩
  rcases j with ⟨_,_,st⟩
  cases st <;> simp_all [JobStatus.isTerminal]

theorem JobRow.emits_confirmed (j : JobRow) (hj : j.status ∈ [JobStatus.included]) :
    j.Emits .confirmed j.toConfirmed := by
  have hj : j.status = .included := by simpa using hj
  exact ⟨rfl,rfl,rfl,by simp [hj,JobStatus.isTerminal],hj,rfl⟩

/-! ## bind_attempt -/

/-- A committed bind of `a`. -/
structure Bound (s : Store) (epoch : Int) (a : Attempt) (kind : BindKind) (s' : Store) :
    Prop where
  fence : s.leaseEpoch = epoch
  slots : claimSlot s a kind = some s'.nonceSlots
  fresh : ∀ r ∈ s.txAttempts.rows, ¬ r.clash (.ofAttempt a)
  attempts : s'.txAttempts.rows = s.txAttempts.rows ++ [.ofAttempt a]
  owner : ∀ id, a.owner = .job id → ∃ j ∈ s.jobs.rows, j.id = id ∧ j.status ∈ kind.bindable
  jobs : s'.jobs.rows = s.jobs.rows.map (bindJob a kind)
  outbox : JobsEffect s s'
  gas : s'.gasLedger = s.gasLedger
  epoch : s'.leaseEpoch = s.leaseEpoch

/-- What `moveOwner` writes. -/
structure OwnerMoved (s : Store) (a : Attempt) (kind : BindKind) (m : Store) : Prop where
  owner : ∀ id, a.owner = .job id → ∃ j ∈ s.jobs.rows, j.id = id ∧ j.status ∈ kind.bindable
  jobs : m.jobs.rows = s.jobs.rows.map (bindJob a kind)
  outbox : JobsEffect s m
  gas : m.gasLedger = s.gasLedger
  epoch : m.leaseEpoch = s.leaseEpoch

theorem moveOwner_job {id : JobId} {kind : BindKind} {f : JobRow → JobRow}
    {hf : ∀ j, (f j).id = j.id} {m : Store} (ho : a.owner = .job id)
    (hb : bindJob a kind = ownJob a kind.bindable f)
    (hq : ∀ j : JobRow, j.status ∈ kind.bindable → j.Quiet (f j))
    (h : (s.jobs.updateReturning (JobRow.whereIn id kind.bindable) f hf).map
      (fun r => ({ s with jobs := r.2 } : Store)) = some m) : OwnerMoved s a kind m := by
  obtain ⟨⟨j',jobs⟩,hu,rfl⟩ := Option.map_eq_some_iff.mp h
  obtain ⟨⟨j,hm,hp,-⟩,rfl⟩ := Table.updateReturning_eq_some hu
  refine ⟨?_,?_,.of_update hq rfl rfl rfl,rfl,rfl⟩
  · intro i hi
    obtain rfl : id = i := by simpa [ho] using hi
    exact ⟨j,hm,JobRow.whereIn_eq_true.mp hp⟩
  · rw [hb]
    exact rows_ownJob ho _ _ _

theorem moveOwner_topup {t : Uuid} {kind : BindKind} {topups : Keyed TopupRow.id}
    (ho : a.owner = .topup t) : OwnerMoved s a kind { s with topups := topups } := by
  refine ⟨?_,?_,.none rfl rfl rfl,rfl,rfl⟩
  · intro i hi
    simp [ho] at hi
  · exact (rows_same (fun j => ownJob_topup ho _ _ j) _).symm

theorem moveOwner_spec {kind : BindKind} {m : Store} (h : moveOwner s a kind = some m) :
    OwnerMoved s a kind m := by
  have hlive : ∀ j : JobRow, j.status ∈ [JobStatus.sent,.cancelling] →
      j.status.isTerminal = false := by
    intro j hj
    rcases List.mem_pair.mp hj with h | h <;> rw [h] <;> rfl
  unfold moveOwner at h
  split at h
  · next id ho =>
    refine moveOwner_job ho rfl ?_ h
    intro j hj
    have hj : j.status = .queued := by simpa [BindKind.bindable] using hj
    exact ⟨rfl,rfl,rfl,by simp [hj,JobStatus.isTerminal],rfl,by simp [JobRow.toSent]⟩
  · next id ho =>
    refine moveOwner_job ho rfl ?_ h
    intro j hj
    exact ⟨rfl,rfl,rfl,hlive j hj,hlive j hj,fun h => h⟩
  · next id ho =>
    refine moveOwner_job ho rfl ?_ h
    intro j hj
    exact ⟨rfl,rfl,rfl,hlive j hj,rfl,by simp⟩
  · next id ho =>
    obtain ⟨r,-,rfl⟩ := Option.map_eq_some_iff.mp h
    exact moveOwner_topup ho
  · next ho _ =>
    obtain ⟨r,-,rfl⟩ := Option.map_eq_some_iff.mp h
    exact moveOwner_topup ho

/-- A change of other tables does not show in the outbox. -/
theorem JobsEffect.congr {s'' : Store} (h : JobsEffect s s') (hj : s''.jobs = s'.jobs)
    (hd : s''.webhookDeliveries = s'.webhookDeliveries)
    (hr : s''.statsRollup = s'.statsRollup) : JobsEffect s s'' := by
  cases h with
  | none j d r => exact .none (hj ▸ j) (hd ▸ d) (hr ▸ r)
  | insert id req f j d r => exact .insert id req f (hj ▸ j) (hd ▸ d) (hr ▸ r)
  | quiet a b m q j d r => exact .quiet a b m q (hj ▸ j) (hd ▸ d) (hr ▸ r)
  | emits e a b m q j d r => exact .emits e a b m q (hj ▸ j) (hd ▸ d) (hr ▸ r)

theorem JobsEffect.congr_left {s'' : Store} (h : JobsEffect s s') (hj : s.jobs = s''.jobs)
    (hd : s.webhookDeliveries = s''.webhookDeliveries)
    (hr : s.statsRollup = s''.statsRollup) : JobsEffect s'' s' := by
  cases h with
  | none j d r => exact .none (hj ▸ j) (hd ▸ d) (hr ▸ r)
  | insert id req f j d r => exact .insert id req (hj ▸ f) (hj ▸ j) (hd ▸ d) (hr ▸ r)
  | quiet a b m q j d r => exact .quiet a b (hj ▸ m) q (hj ▸ j) (hd ▸ d) (hr ▸ r)
  | emits e a b m q j d r => exact .emits e a b (hj ▸ m) q (hj ▸ j) (hd ▸ d) (hr ▸ r)

theorem bindAttempt_spec {epoch : Int} {kind : BindKind}
    (h : bindAttempt s epoch a kind = .ok s') : Bound s epoch a kind s' := by
  unfold bindAttempt at h
  split at h
  · cases h
  · next hfence =>
    split at h
    · cases h
    · next slots hslots =>
      split at h
      · cases h
      · next attempts hins =>
        split at h
        · cases h
        · split at h
          · cases h
          · next moved hmoved =>
            have hm := moveOwner_spec hmoved
            obtain ⟨hrows,hfresh⟩ := Table.insert_eq_some hins
            cases h
            exact ⟨not_not.mp hfence,hslots,hfresh,hrows,hm.owner,hm.jobs,
              hm.outbox.congr rfl rfl rfl,hm.gas,hm.epoch⟩

/-- A bound slot belongs to the attempt's owner, and every other slot to whom it did. -/
theorem claimSlot_owner {kind : BindKind} (h : claimSlot s a kind = some s'.nonceSlots) :
    s'.slotOwnerId a.slot = some a.owner.id ∧
      ∀ k i, s.slotOwnerId k = some i → s'.slotOwnerId k = some i := by
  have hkept : (if s.slotOwnerId a.slot = some a.owner.id then some s.nonceSlots else none) =
      some s'.nonceSlots → s'.slotOwnerId a.slot = some a.owner.id ∧
        ∀ k i, s.slotOwnerId k = some i → s'.slotOwnerId k = some i := by
    intro h
    split at h
    · next hown =>
      have heq : s'.slotOwnerId = s.slotOwnerId := by
        funext k
        rw [Store.slotOwnerId,Store.slotOwnerId,Option.some.inj h]
      rw [heq]
      exact ⟨hown,fun _ _ h => h⟩
    · cases h
  cases kind with
  | first =>
    obtain ⟨hrows,hfresh⟩ := Table.insert_eq_some h
    have hnone : s.nonceSlots.rows.find? (fun r => r.slot = a.slot) = none := by
      rw [List.find?_eq_none]
      intro r hr
      simpa using hfresh r hr
    refine ⟨?_,?_⟩
    · simp [Store.slotOwnerId,hrows,List.find?_append,hnone]
    · intro k i hk
      rw [Store.slotOwnerId,Option.map_eq_some_iff] at hk
      obtain ⟨r,hr,rfl⟩ := hk
      rw [Store.slotOwnerId,hrows,List.find?_append,hr]
      rfl
  | replacement => exact hkept h
  | cancel => exact hkept h

/-! ## settle_inclusion -/

def includeTopup (a : Attempt) : TopupRow → TopupRow :=
  rewrite (fun t => a.owner = .topup t.id && t.status = .sent) fun t =>
    { t with status := .included }

/-- A committed inclusion of `a`. -/
structure Settles (s : Store) (a : Attempt) (inc : Inclusion) (s' : Store) : Prop where
  found : ∃ r ∈ s.txAttempts.rows, r.id = a.id ∧ r.status = .broadcast
  attempts : s'.txAttempts.rows = s.txAttempts.rows.map (settleRow a inc)
  owner : a.purpose = .job → ∀ id, a.owner = .job id →
    ∃ j ∈ s.jobs.rows, j.id = id ∧ j.status ∈ [JobStatus.sent,.cancelling]
  jobs : s'.jobs.rows = s.jobs.rows.map (includeJob a inc)
  topups : s'.topups.rows = s.topups.rows.map (includeTopup a)
  outbox : JobsEffect s s'
  gas : s'.gasLedger = addGas s.gasLedger ⟨a.chainId,a.signer,a.purpose⟩ 1 inc.gasUsed inc.feePaid
  slots : s'.nonceSlots = s.nonceSlots
  epoch : s'.leaseEpoch = s.leaseEpoch

/-- What `includeOwner` writes. -/
structure OwnerIncluded (s : Store) (a : Attempt) (inc : Inclusion) (m : Store) : Prop where
  attempts : m.txAttempts = s.txAttempts
  owner : a.purpose = .job → ∀ id, a.owner = .job id →
    ∃ j ∈ s.jobs.rows, j.id = id ∧ j.status ∈ [JobStatus.sent,.cancelling]
  jobs : m.jobs.rows = s.jobs.rows.map (includeJob a inc)
  topups : m.topups.rows = s.topups.rows.map (includeTopup a)
  outbox : JobsEffect s m
  gas : m.gasLedger = s.gasLedger
  slots : m.nonceSlots = s.nonceSlots
  epoch : m.leaseEpoch = s.leaseEpoch

theorem topups_job {id : JobId} (ho : a.owner = .job id) (rows : List TopupRow) :
    rows.map (includeTopup a) = rows :=
  map_rewrite_none (by simp [ho])

theorem includeOwner_spec {inc : Inclusion} {m : Store}
    (h : includeOwner s a inc false = .ok m) : OwnerIncluded s a inc m := by
  unfold includeOwner at h
  split at h
  · next id ho hp =>
    split at h
    · cases h
    · next job jobs hu =>
      have hout : JobsEffect s { s with
          jobs := jobs
          webhookDeliveries := enqueue s.webhookDeliveries job .included job.webhookSeq false } := by
        refine .of_returning (JobRow.emits_included inc) hu rfl rfl ?_
        obtain ⟨⟨j,-,-,rfl⟩,-⟩ := Table.updateReturning_eq_some hu
        rfl
      obtain ⟨⟨j,hm,hj,-⟩,rfl⟩ := Table.updateReturning_eq_some hu
      cases h
      refine ⟨rfl,?_,?_,(topups_job ho _).symm,hout,rfl,rfl,rfl⟩
      · intro _ i hi
        obtain rfl : id = i := by simpa [ho] using hi
        exact ⟨j,hm,JobRow.whereIn_eq_true.mp hj⟩
      · have hrow : includeJob a inc = ownJob a [.sent,.cancelling] (JobRow.toIncluded inc) := by
          funext j
          simp [includeJob,hp]
        rw [hrow]
        exact rows_ownJob ho _ _ _
  · next id ho hp =>
    cases h
    have hne : a.purpose ≠ .job := fun h => hp h
    refine ⟨rfl,fun h => absurd h hne,?_,(topups_job ho _).symm,.none rfl rfl rfl,rfl,rfl,rfl⟩
    exact (rows_same (fun j => by simp [includeJob,hne]) _).symm
  · next id ho =>
    cases h
    refine ⟨rfl,?_,?_,?_,.none rfl rfl rfl,rfl,rfl,rfl⟩
    · intro _ i hi
      simp [ho] at hi
    · refine (rows_same (fun j => ?_) _).symm
      unfold includeJob
      split
      · exact ownJob_topup ho _ _ j
      · rfl
    · rw [Table.update_rows]
      apply List.map_congr_left
      intro t _
      simp only [includeTopup,rewrite,TopupRow.whereIn,ho,SlotOwner.topup.injEq,
        List.mem_singleton,eq_comm]

theorem any_whereIn {rows : List AttemptRow} {id : Uuid} {st : AttemptStatus} :
    rows.any (AttemptRow.whereIn id [st]) = true ↔ ∃ r ∈ rows, r.id = id ∧ r.status = st := by
  simp [AttemptRow.whereIn]

/-- A settlement does nothing, or includes the attempt and, on demand, confirms it. -/
theorem settleInclusion_spec {inc : Inclusion} {confirmNow : Bool} {st : Settled}
    (h : settleInclusion s a inc confirmNow false = .ok (st,s')) :
    st = .noop ∧ s' = s ∨ st = .applied ∧
      ∃ m, Settles s a inc m ∧ s' = if confirmNow then (confirmInTx m a).2 else m := by
  unfold settleInclusion at h
  split at h
  · cases h
    exact .inl ⟨rfl,rfl⟩
  · next hfound =>
    split at h
    · cases h
    · next attempts hup =>
      dsimp only at h
      split at h
      · cases h
      · next m hm =>
        cases h
        have hi := includeOwner_spec hm
        have hf := any_whereIn.mp (by simpa using hfound)
        refine .inr ⟨rfl,m,⟨hf,?_,hi.owner,hi.jobs,hi.topups,?_,hi.gas,hi.slots,hi.epoch⟩,rfl⟩
        · rw [hi.attempts,Table.update_rows,Table.tryUpdate_rows hup,List.map_map]
          rfl
        · exact hi.outbox.congr_left rfl rfl rfl

/-! ## settle_confirmation -/

/-- A committed confirmation of `a`. -/
structure Confirms (s : Store) (a : Attempt) (s' : Store) : Prop where
  found : ∃ r ∈ s.txAttempts.rows, r.id = a.id ∧ r.status = .included
  attempts : s'.txAttempts.rows = s.txAttempts.rows.map (confirmRow a)
  jobs : s'.jobs.rows = s.jobs.rows.map (confirmJob a)
  outbox : JobsEffect s s'
  gas : s'.gasLedger = s.gasLedger
  slots : s'.nonceSlots = s.nonceSlots
  epoch : s'.leaseEpoch = s.leaseEpoch

/-- What `confirmOwner` writes. -/
structure OwnerConfirmed (s : Store) (a : Attempt) (m : Store) : Prop where
  attempts : m.txAttempts = s.txAttempts
  jobs : m.jobs.rows = s.jobs.rows.map (confirmJob a)
  outbox : JobsEffect s m
  gas : m.gasLedger = s.gasLedger
  slots : m.nonceSlots = s.nonceSlots
  epoch : m.leaseEpoch = s.leaseEpoch

/-- The owner's row leaves one of the statuses `st` with a webhook, if it is in one. -/
theorem confirmed_job {id : JobId} {st : List JobStatus} {f : JobRow → JobRow}
    {hf : ∀ j, (f j).id = j.id} {event : WebhookEvent} {bucket : JobRow → RollupBucket}
    (ho : a.owner = .job id) (he : ∀ j : JobRow, j.status ∈ st → j.Emits event (f j))
    (hb : ∀ j, (f j).rollupKey = some ⟨(f j).request.chainId,(f j).signer,bucket (f j)⟩)
    (hrow : confirmJob a = ownJob a st f) :
    OwnerConfirmed s a (match s.jobs.updateReturning (JobRow.whereIn id st) f hf with
      | none => s
      | some (job,jobs) => { s with jobs := jobs }.announce job event (bucket job)) := by
  cases hu : s.jobs.updateReturning (JobRow.whereIn id st) f hf with
  | none =>
    have hnone := Table.updateReturning_eq_none.mp hu
    refine ⟨rfl,?_,.none rfl rfl rfl,rfl,rfl,rfl⟩
    rw [hrow,← rows_ownJob ho]
    exact (map_rewrite_none hnone).symm
  | some p =>
    obtain ⟨job,jobs⟩ := p
    have hout := hu
    obtain ⟨⟨j,hm,hj,rfl⟩,rfl⟩ := Table.updateReturning_eq_some hu
    refine ⟨rfl,?_,.of_returning he hout rfl rfl ?_,rfl,rfl,rfl⟩
    · rw [hrow]
      exact rows_ownJob ho _ _ _
    · rw [hb j]
      rfl

theorem confirmOwner_spec : OwnerConfirmed s a (confirmOwner s a) := by
  unfold confirmOwner
  split
  · next id ho hp =>
    refine confirmed_job ho JobRow.emits_confirmed (fun _ => rfl) ?_
    funext j
    simp [confirmJob,hp]
  · next id ho hp =>
    refine confirmed_job ho (fun j hj => ?_) (fun _ => rfl) ?_
    · exact JobRow.emits_failed (by decide) _ _ j hj
    · have hne : a.purpose ≠ .job := fun h => hp h
      funext j
      simp [confirmJob,hne]
  · next id ho =>
    refine ⟨rfl,(rows_same (fun j => ?_) _).symm,.none rfl rfl rfl,rfl,rfl,rfl⟩
    unfold confirmJob
    split <;> exact ownJob_topup ho _ _ j

theorem confirmInTx_spec (s : Store) (a : Attempt) :
    confirmInTx s a = (.noop,s) ∨
      (confirmInTx s a).1 = .applied ∧ Confirms s a (confirmInTx s a).2 := by
  unfold confirmInTx
  split
  · exact .inl rfl
  · next hfound =>
    have hc := confirmOwner_spec (a := a) (s := { s with
      txAttempts := (s.txAttempts.update _ _ (tame_confirmed a.id).clash).update _ _
        (tame_forget a.slot).clash })
    refine .inr ⟨rfl,any_whereIn.mp (by simpa using hfound),?_,hc.jobs,
      hc.outbox.congr_left rfl rfl rfl,hc.gas,hc.slots,hc.epoch⟩
    rw [hc.attempts,Table.update_rows,Table.update_rows,List.map_map]
    rfl

/-! ## update_inclusion_block -/

structure Moves (s : Store) (a : Attempt) (number : Nat) (hash : B256) (receipt : Receipt)
    (s' : Store) : Prop where
  attempts : s'.txAttempts.rows = s.txAttempts.rows.map (moveRow a number hash)
  jobs : s'.jobs.rows = s.jobs.rows.map (moveJob a number hash receipt)
  outbox : JobsEffect s s'
  gas : s'.gasLedger = s.gasLedger
  slots : s'.nonceSlots = s.nonceSlots
  epoch : s'.leaseEpoch = s.leaseEpoch

theorem JobRow.quiet_included {f : JobRow → JobRow} (hid : ∀ j, (f j).id = j.id)
    (hreq : ∀ j, (f j).request = j.request) (hseq : ∀ j, (f j).webhookSeq = j.webhookSeq)
    (hterm : ∀ j : JobRow, j.status = .included → (f j).status.isTerminal = false) (j : JobRow)
    (hj : j.status ∈ [JobStatus.included]) : j.Quiet (f j) := by
  have hj : j.status = .included := by simpa using hj
  exact ⟨hid j,hreq j,hseq j,by simp [hj,JobStatus.isTerminal],hterm j hj,fun _ => hj⟩

theorem updateInclusionBlock_spec (s : Store) (a : Attempt) (number : Nat) (hash : B256)
    (receipt : Receipt) :
    Moves s a number hash receipt (updateInclusionBlock s a number hash receipt) := by
  unfold updateInclusionBlock
  dsimp only
  split
  · next id ho hp =>
    refine ⟨rfl,?_,.of_update ?_ rfl rfl rfl,rfl,rfl,rfl⟩
    · have hrow : moveJob a number hash receipt =
          ownJob a [.included] (JobRow.moveTo number hash receipt) := by
        funext j
        simp [moveJob,hp]
      rw [hrow]
      exact rows_ownJob ho _ _ _
    · exact JobRow.quiet_included (fun _ => rfl) (fun _ => rfl) (fun _ => rfl)
        (fun j hj => by simp [JobRow.moveTo,hj,JobStatus.isTerminal])
  · next hno =>
    refine ⟨rfl,(rows_same (fun j => ?_) _).symm,.none rfl rfl rfl,rfl,rfl,rfl⟩
    unfold moveJob
    split
    · next hp => exact ownJob_of_not fun h => hno _ h.1 hp
    · rfl

/-! ## demote_inclusion -/

def demoteTopup (a : Attempt) : TopupRow → TopupRow :=
  rewrite (fun t => a.owner = .topup t.id && t.status = .included) fun t =>
    { t with status := .sent }

/-- A committed demotion of `a`. -/
structure Demotes (s : Store) (a : Attempt) (s' : Store) : Prop where
  gas : ∃ r ∈ s.txAttempts.rows, r.id = a.id ∧ r.status = .included ∧
    s'.gasLedger = addGas s.gasLedger ⟨a.chainId,a.signer,a.purpose⟩
      (-1) (-(r.gasUsed.getD 0)) (-(r.feePaid.getD 0))
  attempts : s'.txAttempts.rows = s.txAttempts.rows.map (demoteRow a)
  jobs : s'.jobs.rows = s.jobs.rows.map (demoteJob a)
  topups : s'.topups.rows = s.topups.rows.map (demoteTopup a)
  outbox : JobsEffect s s'
  slots : s'.nonceSlots = s.nonceSlots
  epoch : s'.leaseEpoch = s.leaseEpoch

/-- What `demoteOwner` writes. -/
structure OwnerDemoted (s : Store) (a : Attempt) (m : Store) : Prop where
  attempts : m.txAttempts = s.txAttempts
  jobs : m.jobs.rows = s.jobs.rows.map (demoteJob a)
  topups : m.topups.rows = s.topups.rows.map (demoteTopup a)
  outbox : JobsEffect s m
  gas : m.gasLedger = s.gasLedger
  slots : m.nonceSlots = s.nonceSlots
  epoch : m.leaseEpoch = s.leaseEpoch

theorem topups_demote_job {id : JobId} (ho : a.owner = .job id) (rows : List TopupRow) :
    rows.map (demoteTopup a) = rows :=
  map_rewrite_none (by simp [ho])

theorem demoteOwner_spec : OwnerDemoted s a (demoteOwner s a) := by
  unfold demoteOwner
  split
  · next id ho hp =>
    refine ⟨rfl,?_,(topups_demote_job ho _).symm,.of_update ?_ rfl rfl rfl,rfl,rfl,rfl⟩
    · have hrow : demoteJob a = ownJob a [.included] JobRow.toDemoted := by
        funext j
        simp [demoteJob,hp]
      rw [hrow]
      exact rows_ownJob ho _ _ _
    · exact JobRow.quiet_included (fun _ => rfl) (fun _ => rfl) (fun _ => rfl) (fun _ _ => rfl)
  · next id ho hp =>
    have hne : a.purpose ≠ .job := fun h => hp h
    refine ⟨rfl,(rows_same (fun j => ?_) _).symm,(topups_demote_job ho _).symm,
      .none rfl rfl rfl,rfl,rfl,rfl⟩
    simp [demoteJob,hne]
  · next id ho =>
    refine ⟨rfl,(rows_same (fun j => ?_) _).symm,?_,.none rfl rfl rfl,rfl,rfl,rfl⟩
    · unfold demoteJob
      split
      · exact ownJob_topup ho _ _ j
      · rfl
    · rw [Table.update_rows]
      apply List.map_congr_left
      intro t _
      simp only [demoteTopup,rewrite,TopupRow.whereIn,ho,SlotOwner.topup.injEq,
        List.mem_singleton,eq_comm]

theorem demoteInclusion_spec (s : Store) (a : Attempt) :
    demoteInclusion s a = (.noop,s) ∨
      (demoteInclusion s a).1 = .applied ∧ Demotes s a (demoteInclusion s a).2 := by
  unfold demoteInclusion
  split
  · exact .inl rfl
  · next row attempts hu =>
    obtain ⟨⟨r,hm,hp,rfl⟩,rfl⟩ := Table.updateReturning_eq_some hu
    obtain ⟨hid,hst⟩ : r.id = a.id ∧ r.status = .included := by
      simpa [AttemptRow.whereIn] using hp
    have hd := demoteOwner_spec (a := a) (s := { s with
      txAttempts := s.txAttempts.update _ _ (tame_demoted a.id).clash
      gasLedger := addGas s.gasLedger ⟨a.chainId,a.signer,a.purpose⟩
        (-1) (-(r.gasUsed.getD 0)) (-(r.feePaid.getD 0)) })
    exact .inr ⟨rfl,⟨r,hm,hid,hst,hd.gas⟩,congrArg Table.rows hd.attempts,hd.jobs,hd.topups,
      hd.outbox.congr_left rfl rfl rfl,hd.slots,hd.epoch⟩

/-! ## void_binding -/

/-- A committed void of the binding of `a`. -/
structure Voids (s : Store) (epoch : Int) (a : Attempt) (mode : VoidMode)
    (disposition : VoidDisposition) (now : Nat) (s' : Store) : Prop where
  fence : s.leaseEpoch = epoch
  attempts : s'.txAttempts.rows = s.txAttempts.rows.map (dropRow a.slot)
  jobs : s'.jobs.rows = s.jobs.rows.map (voidJob a disposition now)
  outbox : JobsEffect s s'
  slots : s'.nonceSlots.rows = s.nonceSlots.rows.filter fun r =>
    !(mode = .nonceUnused && (r.slot = a.slot && r.ownerId = a.owner.id))
  gas : s'.gasLedger = s.gasLedger
  epoch : s'.leaseEpoch = s.leaseEpoch

/-- What `voidOwner` writes. -/
structure OwnerVoided (s : Store) (a : Attempt) (disposition : VoidDisposition) (now : Nat)
    (m : Store) : Prop where
  attempts : m.txAttempts = s.txAttempts
  jobs : m.jobs.rows = s.jobs.rows.map (voidJob a disposition now)
  outbox : JobsEffect s m
  slots : m.nonceSlots = s.nonceSlots
  gas : m.gasLedger = s.gasLedger
  epoch : m.leaseEpoch = s.leaseEpoch

theorem voidOwner_spec (disposition : VoidDisposition) (now : Nat) :
    OwnerVoided s a disposition now (voidOwner s a.owner disposition now) := by
  have hst : ∀ x ∈ [JobStatus.sent,.cancelling], x.isTerminal = false := by decide
  unfold voidOwner
  split
  · next id ho =>
    refine ⟨rfl,rows_ownJob ho _ _ _,.of_update ?_ rfl rfl rfl,rfl,rfl,rfl⟩
    intro j hj
    exact ⟨rfl,rfl,rfl,hst _ hj,rfl,by simp [JobRow.toRequeued]⟩
  · next id failure message ho =>
    cases hu : s.jobs.updateReturning (JobRow.whereIn id [.sent,.cancelling])
        (JobRow.toFailed failure message) (fun _ => rfl) with
    | none =>
      have hnone := Table.updateReturning_eq_none.mp hu
      refine ⟨rfl,?_,.none rfl rfl rfl,rfl,rfl,rfl⟩
      exact (map_rewrite_none hnone).symm.trans (rows_ownJob ho _ _ _)
    | some p =>
      obtain ⟨job,jobs⟩ := p
      have hout := hu
      obtain ⟨⟨j,-,-,rfl⟩,rfl⟩ := Table.updateReturning_eq_some hu
      exact ⟨rfl,rows_ownJob ho _ _ _,
        .of_returning (JobRow.emits_failed hst failure message) hout rfl rfl rfl,rfl,rfl,rfl⟩
  · next id ho =>
    refine ⟨rfl,(rows_same (fun j => ?_) _).symm,.none rfl rfl rfl,rfl,rfl,rfl⟩
    unfold voidJob
    split <;> exact ownJob_topup ho _ _ j

theorem voidBinding_spec {epoch : Int} {mode : VoidMode} {disposition : VoidDisposition}
    {now : Nat} (h : voidBinding s epoch a mode disposition now = .ok s') :
    Voids s epoch a mode disposition now s' := by
  unfold voidBinding at h
  split at h
  · cases h
  · next hfence =>
    dsimp only at h
    cases h
    have hv := voidOwner_spec (a := a) disposition now
      (s := if mode = .nonceUnused then
        releaseSlot { s with
          txAttempts := s.txAttempts.update _ _ (tame_dropped a.slot).clash } a
        else { s with txAttempts := s.txAttempts.update _ _ (tame_dropped a.slot).clash })
    refine ⟨not_not.mp hfence,?_,?_,?_,?_,?_,?_⟩
    · rw [hv.attempts]
      split <;> rfl
    · rw [hv.jobs]
      split <;> rfl
    · refine hv.outbox.congr_left ?_ ?_ ?_ <;> split <;> rfl
    · rw [hv.slots]
      split
      · next hm => simp [releaseSlot,hm]
      · next hm => simp [hm]
    · rw [hv.gas]
      split <;> rfl
    · rw [hv.epoch]
      split <;> rfl

/-- A void touches no slot but its own, and that one only when the nonce is unused. -/
theorem Voids.slotOwner {epoch : Int} {mode : VoidMode} {disposition : VoidDisposition}
    {now : Nat} (h : Voids s epoch a mode disposition now s') {k : Slot}
    (hk : k ≠ a.slot ∨ mode ≠ .nonceUnused) : s'.slotOwnerId k = s.slotOwnerId k := by
  unfold Store.slotOwnerId
  rw [h.slots,List.find?_filter]
  congr 2
  funext r
  by_cases hr : r.slot = k
  · rcases hk with hk | hk <;> simp [hr,hk]
  · simp [hr]

/-! ## Operations on jobs alone -/

/-- A change that touches no attempt, slot or gas counter. -/
structure JobsOnly (s s' : Store) : Prop where
  attempts : s'.txAttempts = s.txAttempts
  slots : s'.nonceSlots = s.nonceSlots
  gas : s'.gasLedger = s.gasLedger
  epoch : s'.leaseEpoch = s.leaseEpoch

theorem JobsOnly.rfl' (s : Store) : JobsOnly s s := ⟨rfl,rfl,rfl,rfl⟩

theorem insertJob_spec {id : JobId} {request : JobRequest}
    (h : insertJob s id request = .ok s') :
    JobsOnly s s' ∧ (∀ j ∈ s.jobs.rows, j.id ≠ id) ∧
      s'.jobs.rows = s.jobs.rows ++ [JobRow.new id request] ∧ JobsEffect s s' := by
  unfold insertJob at h
  split at h
  · cases h
  · next jobs hins =>
    cases h
    obtain ⟨hrows,hfresh⟩ := Table.insert_eq_some hins
    exact ⟨⟨rfl,rfl,rfl,rfl⟩,hfresh,hrows,.insert id request hfresh hrows rfl rfl⟩

theorem createTopup_spec {id : Uuid} {chainId : ChainId} {treasury signer : Address}
    {amount : U256} (h : createTopup s id chainId treasury signer amount = .ok s') :
    JobsOnly s s' ∧ s'.jobs = s.jobs ∧ JobsEffect s s' := by
  unfold createTopup at h
  split at h
  · cases h
  · cases h
    exact ⟨⟨rfl,rfl,rfl,rfl⟩,rfl,.none rfl rfl rfl⟩

theorem requeueFront_spec {id : JobId} {now n : Nat}
    (h : requeueFront s id now = .ok (n,s')) :
    JobsOnly s s' ∧ JobsEffect s s' ∧
      s'.jobs.rows = s.jobs.rows.map (rewrite (JobRow.whereIn id [.queued]) fun j =>
        { j with requeueRank := -now, requeueCount := j.requeueCount + 1 }) := by
  unfold requeueFront at h
  split at h
  · cases h
  · next j jobs hu =>
    obtain ⟨-,rfl⟩ := Table.updateReturning_eq_some hu
    cases h
    refine ⟨⟨rfl,rfl,rfl,rfl⟩,.of_update ?_ rfl rfl rfl,rfl⟩
    intro j hj
    have hj : j.status = .queued := by simpa using hj
    have hlive : j.status.isTerminal = false := by rw [hj]; rfl
    exact ⟨rfl,rfl,rfl,hlive,hlive,fun h => h⟩

theorem failJob_only (s : Store) (id : JobId) (allowed : List JobStatus) (failure : JobFailure)
    (message : String) (revertData : Option Bytes) :
    JobsOnly s (failJob s id allowed failure message revertData).2 := by
  unfold failJob
  split
  · exact .rfl' s
  · exact ⟨rfl,rfl,rfl,rfl⟩

theorem failJob_spec (id : JobId) {allowed : List JobStatus} (failure : JobFailure)
    (message : String) (revertData : Option Bytes)
    (hlive : ∀ x ∈ allowed, x.isTerminal = false) :
    JobsEffect s (failJob s id allowed failure message revertData).2 ∧
      (failJob s id allowed failure message revertData).2.jobs.rows =
        s.jobs.rows.map (rewrite (JobRow.whereIn id allowed) fun j =>
          { j.toFailed failure message with revertData := revertData }) := by
  unfold failJob
  split
  · next hu =>
    have hnone := Table.updateReturning_eq_none.mp hu
    exact ⟨.none rfl rfl rfl,(map_rewrite_none hnone).symm⟩
  · next job jobs hu =>
    have hout := hu
    obtain ⟨⟨j,-,-,rfl⟩,rfl⟩ := Table.updateReturning_eq_some hu
    refine ⟨.of_returning (fun j hj => ?_) hout rfl rfl rfl,rfl⟩
    exact ⟨rfl,rfl,rfl,hlive _ hj,rfl⟩

/-! ## load_live_attempts_for -/

theorem mapM_ok {α β ε : Type} {f : α → Except ε β} {l : List α}
    (h : ∀ x ∈ l, ∃ y, f x = .ok y) : ∃ l', l.mapM f = .ok l' := by
  induction l with
  | nil => exact ⟨[],rfl⟩
  | cons x l ih =>
    obtain ⟨y,hy⟩ := h x List.mem_cons_self
    obtain ⟨ys,hys⟩ := ih fun z hz => h z (List.mem_cons_of_mem _ hz)
    exact ⟨y :: ys,by rw [List.mapM_cons,hy,hys]; rfl⟩

theorem mem_mapM {α β ε : Type} {f : α → Except ε β} {l : List α} {l' : List β}
    (h : l.mapM f = .ok l') :
    (∀ x ∈ l, ∃ y ∈ l', f x = .ok y) ∧ ∀ y ∈ l', ∃ x ∈ l, f x = .ok y := by
  induction l generalizing l' with
  | nil =>
    cases h
    exact ⟨by simp,by simp⟩
  | cons x l ih =>
    rw [List.mapM_cons] at h
    cases hy : f x with
    | error e => rw [hy] at h; cases h
    | ok y =>
      cases hys : l.mapM f with
      | error e => rw [hy,hys] at h; cases h
      | ok ys =>
        rw [hy,hys] at h
        cases h
        obtain ⟨h1,h2⟩ := ih hys
        refine ⟨?_,?_⟩
        · intro z hz
          rcases List.mem_cons.mp hz with rfl | hz
          · exact ⟨y,List.mem_cons_self,hy⟩
          · obtain ⟨w,hw,hf⟩ := h1 z hz
            exact ⟨w,List.mem_cons_of_mem _ hw,hf⟩
        · intro z hz
          rcases List.mem_cons.mp hz with rfl | hz
          · exact ⟨x,List.mem_cons_self,hy⟩
          · obtain ⟨w,hw,hf⟩ := h2 z hz
            exact ⟨w,List.mem_cons_of_mem _ hw,hf⟩

theorem mem_liveRows {s : Store} {chainId : ChainId} {signer : Address} {r : AttemptRow} :
    r ∈ s.liveRows chainId signer ↔
      r ∈ s.txAttempts.rows ∧ r.chainId = chainId ∧ r.signer = signer ∧ r.live := by
  simp [Store.liveRows]

/-- A row loads iff it has an owner, and then under its own id and bytes. -/
theorem attemptRow_ok {r : AttemptRow} {x : Attempt} (h : attemptRow r = .ok x) :
    r.owner = some x.owner ∧ x.id = r.id ∧ x.txHash = r.txHash ∧ x.rawTx = r.rawTx.getD [] := by
  unfold attemptRow at h
  split at h
  · cases h
  · next o ho =>
    cases h
    exact ⟨ho,rfl,rfl,rfl⟩

theorem attemptRow_slot {r : AttemptRow} {x : Attempt} (h : attemptRow r = .ok x) :
    x.slot = r.slot := by
  unfold attemptRow at h
  split at h
  · cases h
  · cases h
    rfl

theorem attemptRow_terms {r : AttemptRow} {x : Attempt} (h : attemptRow r = .ok x) :
    x.purpose = r.purpose ∧ x.gasLimit = r.gasLimit ∧ x.value = r.value := by
  unfold attemptRow at h
  split at h
  · cases h
  · cases h
    exact ⟨rfl,rfl,rfl⟩

/-- It loads as mined, or not, in the block it is stored in. -/
theorem attemptRow_mined {r : AttemptRow} {x : Attempt} (h : attemptRow r = .ok x) :
    x.status = r.status ∧ x.blockNumber = r.blockNumber ∧ x.blockHash = r.blockHash := by
  unfold attemptRow at h
  split at h
  · cases h
  · cases h
    exact ⟨rfl,rfl,rfl⟩

theorem attemptRow_loads {r : AttemptRow} {o : SlotOwner} (h : r.owner = some o) :
    ∃ x, attemptRow r = .ok x := by
  unfold attemptRow
  rw [h]
  exact ⟨_,rfl⟩

/-- Loading succeeds once every row has an owner, and finds each live row. -/
theorem loadLive_ok (chainId : ChainId) (signer : Address)
    (ho : ∀ r ∈ s.txAttempts.rows, r.owner.isSome = true) :
    ∃ l, loadLiveAttemptsFor s chainId signer = .ok l ∧
      ∀ r ∈ s.liveRows chainId signer, ∃ x ∈ l, attemptRow r = .ok x := by
  have hload : ∀ r ∈ s.liveRows chainId signer, ∃ x, attemptRow r = .ok x := by
    intro r hr
    obtain ⟨o,hro⟩ := Option.isSome_iff_exists.mp (ho r (mem_liveRows.mp hr).1)
    exact attemptRow_loads hro
  obtain ⟨l,hl⟩ := mapM_ok hload
  exact ⟨l,hl,(mem_mapM hl).1⟩

end GumEngine
