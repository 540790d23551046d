import GumEngine.Store.Ops

/-!
# Jobs, attempts and slots agree

The statuses of a job and of its attempts are kept in two tables and move forwards and
backwards under different gates. The invariant says which job statuses can host an
attempt of a given purpose and status, and where the attempt must sit.
-/

namespace GumEngine
open Relational Transition

/-- The nonce stored on the job. -/
def JobRow.slot (j : JobRow) : Option Slot :=
  match j.signer,j.nonce with
  | some signer,some nonce => some ⟨j.request.chainId,signer,nonce⟩
  | _,_ => none

/-- `status IN ('broadcast', 'included', 'confirmed')` -/
def AttemptRow.active (r : AttemptRow) : Prop :=
  r.status = .broadcast ∨ r.status = .included ∨ r.status = .confirmed

theorem AttemptRow.mined.active {r : AttemptRow} (h : r.mined) : r.active := .inr h

/-- The job statuses in which a job can have an active attempt of this kind. -/
def hosts : AttemptPurpose → AttemptStatus → List JobStatus
  | .job,.broadcast => [.sent,.cancelling]
  | .job,.included => [.included]
  | .job,.confirmed => [.confirmed]
  | _,.broadcast | _,.included => [.cancelling]
  | _,.confirmed => [.failed]
  | _,_ => []

theorem hosts_cancel {p : AttemptPurpose} (hp : p ≠ .job) :
    hosts p .broadcast = [.cancelling] ∧ hosts p .included = [.cancelling] ∧
      hosts p .confirmed = [.failed] := by
  cases p with
  | job => exact absurd rfl hp
  | _ => exact ⟨rfl,rfl,rfl⟩

/-- The status of the attempt that a mined job points at. -/
def JobStatus.minedAs : JobStatus → Option AttemptStatus
  | .included => some .included
  | .confirmed => some .confirmed
  | _ => none

/-- The inductive invariant; `fits` and `lone` carry the others. -/
structure Consistent (s : Store) : Prop where
  owner : ∀ r ∈ s.txAttempts.rows, ∀ i, r.jobId = some i → ∃ j ∈ s.jobs.rows, j.id = i
  fits : ∀ r ∈ s.txAttempts.rows, ∀ j ∈ s.jobs.rows, r.jobId = some j.id → r.active →
    j.slot = some r.slot ∧ j.status ∈ hosts r.purpose r.status
  owns : ∀ r ∈ s.txAttempts.rows, ∀ i, r.jobId = some i → r.active →
    s.slotOwnerId r.slot = some i
  lone : ∀ r ∈ s.txAttempts.rows, ∀ r' ∈ s.txAttempts.rows, ∀ i, r.jobId = some i →
    r'.jobId = some i → r.status = .broadcast → ¬ r'.mined
  mined : ∀ j ∈ s.jobs.rows, ∀ st, j.status.minedAs = some st →
    ∃ r ∈ s.txAttempts.rows, r.jobId = some j.id ∧ r.purpose = .job ∧ r.status = st

/-- A bind carries the purpose of its kind; a replacement or a cancel happens at the nonce
stored on the job, where nothing is mined. -/
def Attempt.MayBind (s : Store) (a : Attempt) (kind : BindKind) : Prop :=
  ∀ id, a.owner = .job id →
    a.purpose = (if kind = .cancel then .cancel else .job) ∧
    (if kind = .first then ∀ j ∈ s.jobs.rows, j.id = id → a.chainId = j.request.chainId
      else (∀ j ∈ s.jobs.rows, j.id = id → j.slot = some a.slot) ∧
        ∀ r ∈ s.txAttempts.rows, r.slot = a.slot → ¬ r.mined)

/-- A void happens at the nonce stored on the job, where nothing is mined. -/
def Attempt.MayVoid (s : Store) (a : Attempt) : Prop :=
  (∀ id, a.owner = .job id → ∀ j ∈ s.jobs.rows, j.id = id → j.slot = some a.slot) ∧
    ∀ r ∈ s.txAttempts.rows, r.slot = a.slot → ¬ r.mined

/-- How the pipeline issues its transactions. -/
def Op.Issued (s : Store) : Op → Prop
  | bindAttempt _ a kind => a.MayBind s kind
  | settleInclusion a _ _ | settleConfirmation a | updateInclusionBlock a _ _ _
  | demoteInclusion a => a.Names s
  | voidBinding _ a _ _ _ => a.MayVoid s
  | failJob _ allowed _ _ _ => allowed = [.queued]
  | _ => True

/-- Every order of transactions, issued as the pipeline does. -/
def pipeline : Machine Store Op where
  allowed s op := op.Issued s
  step s op := op.apply s

instance (r : AttemptRow) (a : Attempt) : Decidable (r.IsOf a) :=
  decidable_of_iff (r.slot = a.slot ∧ r.purpose = a.purpose ∧ r.jobId = a.owner.jobId ∧
      r.topupId = a.owner.topupId ∧ r.txHash = a.txHash)
    ⟨fun ⟨h1,h2,h3,h4,h5⟩ => ⟨h1,h2,h3,h4,h5⟩,fun ⟨h1,h2,h3,h4,h5⟩ => ⟨h1,h2,h3,h4,h5⟩⟩

instance (a : Attempt) (s : Store) : Decidable (a.Names s) :=
  inferInstanceAs (Decidable (∀ r ∈ s.txAttempts.rows, r.id = a.id → r.IsOf a))

instance (o : SlotOwner) (P : JobId → Prop) [DecidablePred P] :
    Decidable (∀ id, o = .job id → P id) :=
  match o with
  | .job i => decidable_of_iff (P i)
      ⟨fun h _ he => (SlotOwner.job.inj he) ▸ h,fun h => h i rfl⟩
  | .topup _ => .isTrue fun _ h => by cases h

instance (s : Store) (a : Attempt) (kind : BindKind) : Decidable (a.MayBind s kind) :=
  inferInstanceAs (Decidable (∀ id, a.owner = .job id →
    a.purpose = (if kind = .cancel then .cancel else .job) ∧
    (if kind = .first then ∀ j ∈ s.jobs.rows, j.id = id → a.chainId = j.request.chainId
      else (∀ j ∈ s.jobs.rows, j.id = id → j.slot = some a.slot) ∧
        ∀ r ∈ s.txAttempts.rows, r.slot = a.slot → ¬ r.mined)))

instance (s : Store) (a : Attempt) : Decidable (a.MayVoid s) :=
  inferInstanceAs (Decidable ((∀ id, a.owner = .job id → ∀ j ∈ s.jobs.rows, j.id = id →
    j.slot = some a.slot) ∧ ∀ r ∈ s.txAttempts.rows, r.slot = a.slot → ¬ r.mined))

instance (s : Store) : DecidablePred (Op.Issued s)
  | .bindAttempt _ a kind => inferInstanceAs (Decidable (a.MayBind s kind))
  | .settleInclusion a _ _ | .settleConfirmation a | .updateInclusionBlock a _ _ _
  | .demoteInclusion a => inferInstanceAs (Decidable (a.Names s))
  | .voidBinding _ a _ _ _ => inferInstanceAs (Decidable (a.MayVoid s))
  | .failJob _ allowed _ _ _ => inferInstanceAs (Decidable (allowed = [.queued]))
  | .insertJob _ _ | .createTopup _ _ _ _ _ | .requeueFront _ _ | .cancelQueued _
  | .acquire => .isTrue trivial

instance (s : Store) (op : Op) : Decidable (pipeline.allowed s op) :=
  inferInstanceAs (Decidable (op.Issued s))

section Facts

variable {s : Store} {r r' : AttemptRow} {j : JobRow}

theorem same_job (hj : j ∈ s.jobs.rows) {j' : JobRow} (hj' : j' ∈ s.jobs.rows)
    (h : j'.id = j.id) : j' = j :=
  Keyed.eq_of_key s.jobs hj' hj h

/-- At most one attempt of a nonce is mined. -/
theorem mined_unique (hr : r ∈ s.txAttempts.rows) (hr' : r' ∈ s.txAttempts.rows)
    (hm : r.mined) (hm' : r'.mined) (hs : r.slot = r'.slot) : r = r' :=
  s.txAttempts.eq_of_clash (fun _ _ => AttemptRow.clash_symm) hr hr' (.inr (.inr ⟨hm,hm',hs⟩))

theorem id_unique (hr : r ∈ s.txAttempts.rows) (hr' : r' ∈ s.txAttempts.rows)
    (h : r.id = r'.id) : r = r' :=
  s.txAttempts.eq_of_clash (fun _ _ => AttemptRow.clash_symm) hr hr' (.inl h)

theorem hash_unique (hr : r ∈ s.txAttempts.rows) (hr' : r' ∈ s.txAttempts.rows)
    (h : r.txHash = r'.txHash) : r = r' :=
  s.txAttempts.eq_of_clash (fun _ _ => AttemptRow.clash_symm) hr hr' (.inr (.inl h))

/-- The active attempts of a job share its nonce. -/
theorem Consistent.same_slot (h : Consistent s) (hr : r ∈ s.txAttempts.rows)
    (hr' : r' ∈ s.txAttempts.rows) {i : JobId} (hi : r.jobId = some i) (hi' : r'.jobId = some i)
    (ha : r.active) (ha' : r'.active) : r.slot = r'.slot := by
  obtain ⟨j,hj,rfl⟩ := h.owner r hr i hi
  have h1 := (h.fits r hr j hj hi ha).1
  have h2 := (h.fits r' hr' j hj hi' ha').1
  exact Option.some.inj (h1.symm.trans h2)

/-- A mined attempt of a job is its only active one. -/
theorem Consistent.only_active (h : Consistent s) (hr : r ∈ s.txAttempts.rows)
    (hr' : r' ∈ s.txAttempts.rows) {i : JobId} (hi : r.jobId = some i) (hi' : r'.jobId = some i)
    (hm : r.mined) (ha : r'.active) : r' = r := by
  have hm' : r'.mined := by
    rcases ha with hb | hm'
    · exact absurd hm (h.lone r' hr' r hr i hi' hi hb)
    · exact hm'
  exact mined_unique hr' hr hm' hm (h.same_slot hr' hr hi' hi hm'.active hm.active)

end Facts

/-- The obligations of an operation that rewrites attempts by `F` and jobs by `G`. -/
theorem Consistent.of_maps {s s' : Store} {F : AttemptRow → AttemptRow} {G : JobRow → JobRow}
    (h : Consistent s) (hF : ∀ r, (F r).Same r) (hG : ∀ j, (G j).id = j.id)
    (ha : s'.txAttempts.rows = s.txAttempts.rows.map F)
    (hj : s'.jobs.rows = s.jobs.rows.map G)
    (fits : ∀ r ∈ s.txAttempts.rows, ∀ j ∈ s.jobs.rows, r.jobId = some j.id → (F r).active →
      (G j).slot = some r.slot ∧ (G j).status ∈ hosts r.purpose (F r).status)
    (owns : ∀ r ∈ s.txAttempts.rows, ∀ i, r.jobId = some i → (F r).active →
      s'.slotOwnerId r.slot = some i)
    (lone : ∀ r ∈ s.txAttempts.rows, ∀ r' ∈ s.txAttempts.rows, ∀ i, r.jobId = some i →
      r'.jobId = some i → (F r).status = .broadcast → ¬ (F r').mined)
    (mined : ∀ j ∈ s.jobs.rows, ∀ st, (G j).status.minedAs = some st →
      ∃ r ∈ s.txAttempts.rows, r.jobId = some j.id ∧ r.purpose = .job ∧ (F r).status = st) :
    Consistent s' := by
  have hrow : ∀ r' ∈ s'.txAttempts.rows, ∃ r ∈ s.txAttempts.rows, F r = r' := by
    rw [ha]
    exact fun _ => List.mem_map.mp
  have hjob : ∀ j' ∈ s'.jobs.rows, ∃ j ∈ s.jobs.rows, G j = j' := by
    rw [hj]
    exact fun _ => List.mem_map.mp
  constructor
  · intro x hx i hi
    obtain ⟨r,hr,rfl⟩ := hrow x hx
    obtain ⟨j,hm,rfl⟩ := h.owner r hr i ((hF r).jobId ▸ hi)
    exact ⟨G j,by rw [hj]; exact List.mem_map_of_mem hm,hG j⟩
  · intro x hx y hy hi hact
    obtain ⟨r,hr,rfl⟩ := hrow x hx
    obtain ⟨j,hm,rfl⟩ := hjob y hy
    rw [(hF r).jobId,hG j] at hi
    rw [(hF r).slot,(hF r).purpose]
    exact fits r hr j hm hi hact
  · intro x hx i hi hact
    obtain ⟨r,hr,rfl⟩ := hrow x hx
    rw [(hF r).slot]
    exact owns r hr i ((hF r).jobId ▸ hi) hact
  · intro x hx x' hx' i hi hi'
    obtain ⟨r,hr,rfl⟩ := hrow x hx
    obtain ⟨r',hr',rfl⟩ := hrow x' hx'
    exact lone r hr r' hr' i ((hF r).jobId ▸ hi) ((hF r').jobId ▸ hi')
  · intro y hy st hst
    obtain ⟨j,hm,rfl⟩ := hjob y hy
    obtain ⟨r,hr,hi,hp,hs⟩ := mined j hm st hst
    refine ⟨F r,by rw [ha]; exact List.mem_map_of_mem hr,?_,?_,hs⟩
    · rw [(hF r).jobId,hG j,hi]
    · rw [(hF r).purpose,hp]

section Settlements

variable {s s' : Store} {a : Attempt} {inc : Inclusion}

theorem Consistent.settle (h : Consistent s) (hn : a.Names s) (hs : Settles s a inc s') :
    Consistent s' := by
  obtain ⟨r₀,hr₀,hid₀,hb₀⟩ := hs.found
  have hof : ∀ r ∈ s.txAttempts.rows, r.id = a.id → r.IsOf a := hn
  -- rows of the owner that are active share the slot of `a` and are broadcast
  have hown : ∀ r ∈ s.txAttempts.rows, ∀ i, r.jobId = some i → a.owner = .job i → r.active →
      r.slot = a.slot ∧ r.status = .broadcast := by
    intro r hr i hi ho hact
    have hi₀ := (hof r₀ hr₀ hid₀).jobId_eq_some.mpr ho
    refine ⟨?_,?_⟩
    · rw [h.same_slot hr hr₀ hi hi₀ hact (.inl hb₀),(hof r₀ hr₀ hid₀).slot]
    · rcases hact with hb | hm
      · exact hb
      · exact absurd hm (h.lone r₀ hr₀ r hr i hi₀ hi hb₀)
  have hkeep : ∀ r, (settleRow a inc r).active → r.active := by
    intro r hact
    by_cases hb : r.status = .broadcast
    · exact .inl hb
    · have hst := settleRow_status a inc r
      rw [if_neg hb] at hst
      simpa only [AttemptRow.active,hst] using hact
  refine h.of_maps (settleRow_same a inc) (includeJob_id a inc) hs.attempts hs.jobs ?_ ?_ ?_ ?_
  · intro r hr j hj hi hact
    have hst := settleRow_status a inc r
    have hra := hkeep r hact
    obtain ⟨hslot,hhost⟩ := h.fits r hr j hj hi hra
    by_cases ho : a.owner = .job j.id
    · obtain ⟨hrs,hb⟩ := hown r hr j.id hi ho hra
      have hid : r.id = a.id := by
        by_contra hid
        rw [if_pos hb,if_neg hid,if_pos hrs] at hst
        simp [AttemptRow.active,hst] at hact
      rw [if_pos hb,if_pos hid] at hst
      have hpur := (hof r hr hid).purpose
      rw [hst]
      rw [hb] at hhost
      by_cases hp : a.purpose = .job
      · rw [hpur,hp] at hhost ⊢
        have hlive : j.status ∈ [JobStatus.sent,.cancelling] := hhost
        rw [includeJob,if_pos hp,ownJob_of ho hlive]
        exact ⟨hslot,List.mem_singleton.mpr rfl⟩
      · rw [includeJob_other fun hx => hp hx.2]
        rw [hpur,(hosts_cancel hp).1] at hhost
        rw [hpur,(hosts_cancel hp).2.1]
        exact ⟨hslot,hhost⟩
    · have hid : r.id ≠ a.id := fun hid => ho ((hof r hr hid).jobId_eq_some.mp hi)
      have hsame : (settleRow a inc r).status = r.status := by
        by_cases hb : r.status = .broadcast
        · by_cases hrs : r.slot = a.slot
          · rw [if_pos hb,if_neg hid,if_pos hrs] at hst
            simp [AttemptRow.active,hst] at hact
          · rw [hst,if_pos hb,if_neg hid,if_neg hrs,hb]
        · rw [hst,if_neg hb]
      rw [hsame,includeJob_other fun hx => ho hx.1]
      exact ⟨hslot,hhost⟩
  · intro r hr i hi hact
    rw [Store.slotOwnerId,hs.slots]
    exact h.owns r hr i hi (hkeep r hact)
  · intro r hr r' hr' i hi hi' hbr hm'
    have hst := settleRow_status a inc r
    have hst' := settleRow_status a inc r'
    have hb : r.status = .broadcast := by
      by_contra hb
      rw [if_neg hb] at hst
      exact hb (hst.symm.trans hbr)
    have hid : r.id ≠ a.id := by
      intro hid
      rw [if_pos hb,if_pos hid,hbr] at hst
      cases hst
    by_cases hb' : r'.status = .broadcast
    · have hid' : r'.id = a.id := by
        by_contra hid'
        rw [if_pos hb',if_neg hid'] at hst'
        split at hst' <;> simp [AttemptRow.mined,hst'] at hm'
      have ho := (hof r' hr' hid').jobId_eq_some.mp hi'
      rw [if_pos hb,if_neg hid,if_pos (hown r hr i hi ho (.inl hb)).1,hbr] at hst
      cases hst
    · rw [if_neg hb'] at hst'
      exact h.lone r hr r' hr' i hi hi' hb (by simpa only [AttemptRow.mined,hst'] using hm')
  · intro j hj st hst
    by_cases ho : a.owner = .job j.id ∧ a.purpose = .job
    · obtain ⟨j',hj',hid,hlive⟩ := hs.owner ho.2 j.id ho.1
      obtain rfl := same_job hj hj' hid
      rw [includeJob,if_pos ho.2,ownJob_of ho.1 hlive] at hst
      refine ⟨r₀,hr₀,(hof r₀ hr₀ hid₀).jobId_eq_some.mpr ho.1,
        (hof r₀ hr₀ hid₀).purpose.trans ho.2,?_⟩
      rw [settleRow_status,if_pos hb₀,if_pos hid₀]
      exact Option.some.inj hst
    · rw [includeJob_other ho] at hst
      obtain ⟨r,hr,hi,hp,hrs⟩ := h.mined j hj st hst
      refine ⟨r,hr,hi,hp,?_⟩
      rw [settleRow_status,if_neg,hrs]
      rw [hrs]
      rintro rfl
      cases hj : j.status <;> simp [hj,JobStatus.minedAs] at hst

/-- A change of the included row `r₀` of `a` together with its owner. No other active row
belongs to that owner, so only the new statuses of the two have to agree. -/
theorem Consistent.flip {F : AttemptRow → AttemptRow} {G : JobRow → JobRow} {r₀ : AttemptRow}
    (h : Consistent s) (hr₀ : r₀ ∈ s.txAttempts.rows) (hin₀ : r₀.status = .included)
    (hof : r₀.IsOf a) (hF : ∀ r, (F r).Same r) (hG : ∀ j, (G j).id = j.id)
    (ha : s'.txAttempts.rows = s.txAttempts.rows.map F)
    (hj : s'.jobs.rows = s.jobs.rows.map G) (hslots : s'.nonceSlots = s.nonceSlots)
    (hst : ∀ r ∈ s.txAttempts.rows, r ≠ r₀ → (F r).status = r.status)
    (hother : ∀ j, a.owner ≠ .job j.id → G j = j)
    (hown : ∀ j, a.owner = .job j.id → j.status ∈ hosts a.purpose .included →
      (G j).slot = j.slot ∧ (G j).status ∈ hosts a.purpose (F r₀).status ∧
        ∀ st, (G j).status.minedAs = some st → a.purpose = .job ∧ (F r₀).status = st) :
    Consistent s' := by
  have hm₀ : r₀.mined := .inl hin₀
  have hjob₀ : ∀ j ∈ s.jobs.rows, a.owner = .job j.id →
      j.slot = some r₀.slot ∧ j.status ∈ hosts a.purpose .included := by
    intro j hj ho
    have hfit := h.fits r₀ hr₀ j hj (hof.jobId_eq_some.mpr ho) hm₀.active
    rwa [hin₀,hof.purpose] at hfit
  have hkeep : ∀ r ∈ s.txAttempts.rows, (F r).active → r.active := by
    intro r hr hact
    by_cases hne : r = r₀
    · exact hne ▸ hm₀.active
    · simpa only [AttemptRow.active,hst r hr hne] using hact
  refine h.of_maps hF hG ha hj ?_ ?_ ?_ ?_
  · intro r hr j hj hi hact
    by_cases ho : a.owner = .job j.id
    · have hi₀ := hof.jobId_eq_some.mpr ho
      obtain rfl := h.only_active hr₀ hr hi₀ hi hm₀ (hkeep r hr hact)
      obtain ⟨hslot,hhost⟩ := hjob₀ j hj ho
      obtain ⟨hslot',hhost',-⟩ := hown j ho hhost
      exact ⟨hslot'.trans hslot,by rw [hof.purpose]; exact hhost'⟩
    · have hne : r ≠ r₀ := by
        rintro rfl
        exact ho (hof.jobId_eq_some.mp hi)
      rw [hst r hr hne,hother j ho]
      exact h.fits r hr j hj hi (hkeep r hr hact)
  · intro r hr i hi hact
    rw [Store.slotOwnerId,hslots]
    exact h.owns r hr i hi (hkeep r hr hact)
  · intro r hr r' hr' i hi hi' hb hm'
    by_cases hne : r = r₀
    · subst hne
      obtain rfl := h.only_active hr hr' hi hi' hm₀ (hkeep r' hr' hm'.active)
      simp [AttemptRow.mined,hb] at hm'
    · rw [hst r hr hne] at hb
      refine h.lone r hr r' hr' i hi hi' hb ?_
      by_cases hne' : r' = r₀
      · exact hne' ▸ hm₀
      · simpa only [AttemptRow.mined,hst r' hr' hne'] using hm'
  · intro j hj st hjst
    by_cases ho : a.owner = .job j.id
    · obtain ⟨hp,hs⟩ := (hown j ho (hjob₀ j hj ho).2).2.2 st hjst
      exact ⟨r₀,hr₀,hof.jobId_eq_some.mpr ho,hof.purpose.trans hp,hs⟩
    · rw [hother j ho] at hjst
      obtain ⟨r,hr,hi,hp,hrs⟩ := h.mined j hj st hjst
      refine ⟨r,hr,hi,hp,?_⟩
      rw [hst r hr,hrs]
      rintro rfl
      exact ho (hof.jobId_eq_some.mp hi)

theorem Consistent.confirm (h : Consistent s) (hn : a.Names s) (hs : Confirms s a s') :
    Consistent s' := by
  obtain ⟨r₀,hr₀,hid₀,hin₀⟩ := hs.found
  refine h.flip hr₀ hin₀ (hn r₀ hr₀ hid₀) (confirmRow_same a) (confirmJob_id a) hs.attempts
    hs.jobs hs.slots ?_ (fun j => confirmJob_other) ?_
  · intro r hr hne
    rw [confirmRow_status,if_neg]
    rintro ⟨hid,-⟩
    exact hne (id_unique hr hr₀ (hid.trans hid₀.symm))
  · intro j ho hhost
    rw [confirmRow_status,if_pos ⟨hid₀,hin₀⟩]
    by_cases hp : a.purpose = .job
    · rw [hp] at hhost ⊢
      have hinc : j.status ∈ [JobStatus.included] := hhost
      rw [confirmJob,if_pos hp,ownJob_of ho hinc]
      exact ⟨rfl,List.mem_singleton.mpr rfl,fun st hst => ⟨rfl,Option.some.inj hst⟩⟩
    · rw [(hosts_cancel hp).2.1] at hhost
      rw [confirmJob,if_neg hp,ownJob_of ho hhost,(hosts_cancel hp).2.2]
      exact ⟨rfl,List.mem_singleton.mpr rfl,fun st hst => by cases hst⟩

theorem Consistent.demote (h : Consistent s) (hn : a.Names s) (hs : Demotes s a s') :
    Consistent s' := by
  obtain ⟨r₀,hr₀,hid₀,hin₀,-⟩ := hs.gas
  refine h.flip hr₀ hin₀ (hn r₀ hr₀ hid₀) (demoteRow_same a) (demoteJob_id a) hs.attempts
    hs.jobs hs.slots ?_ (fun j hne => demoteJob_other fun hx => hne hx.1) ?_
  · intro r hr hne
    rw [demoteRow_status,if_neg]
    rintro ⟨hid,-⟩
    exact hne (id_unique hr hr₀ (hid.trans hid₀.symm))
  · intro j ho hhost
    rw [demoteRow_status,if_pos ⟨hid₀,hin₀⟩]
    by_cases hp : a.purpose = .job
    · rw [hp] at hhost ⊢
      have hinc : j.status ∈ [JobStatus.included] := hhost
      rw [demoteJob,if_pos hp,ownJob_of ho hinc]
      exact ⟨rfl,List.mem_cons_self,fun st hst => by cases hst⟩
    · rw [(hosts_cancel hp).2.1] at hhost
      rw [demoteJob_other fun hx => hp hx.2,(hosts_cancel hp).1]
      refine ⟨rfl,hhost,fun st hst => ?_⟩
      rw [List.mem_singleton.mp hhost] at hst
      cases hst

/-- An operation that changes no status keeps the invariant. -/
theorem Consistent.still {F : AttemptRow → AttemptRow} {G : JobRow → JobRow} (h : Consistent s)
    (hF : ∀ r, (F r).Same r) (hG : ∀ j, (G j).id = j.id)
    (ha : s'.txAttempts.rows = s.txAttempts.rows.map F)
    (hj : s'.jobs.rows = s.jobs.rows.map G) (hslots : s'.nonceSlots = s.nonceSlots)
    (hst : ∀ r, (F r).status = r.status) (hjst : ∀ j, (G j).status = j.status)
    (hjs : ∀ j, (G j).slot = j.slot) : Consistent s' := by
  have hact : ∀ r, (F r).active → r.active := by
    intro r hact
    simpa only [AttemptRow.active,hst r] using hact
  refine h.of_maps hF hG ha hj ?_ ?_ ?_ ?_
  · intro r hr j hj hi ha
    rw [hst,hjst,hjs]
    exact h.fits r hr j hj hi (hact r ha)
  · intro r hr i hi ha
    rw [Store.slotOwnerId,hslots]
    exact h.owns r hr i hi (hact r ha)
  · intro r hr r' hr' i hi hi' hb hm
    rw [hst] at hb
    exact h.lone r hr r' hr' i hi hi' hb (by simpa only [AttemptRow.mined,hst] using hm)
  · intro j hj st hs
    rw [hjst] at hs
    obtain ⟨r,hr,hi,hp,hrs⟩ := h.mined j hj st hs
    exact ⟨r,hr,hi,hp,(hst r).trans hrs⟩

theorem Consistent.move {number : Nat} {hash : B256} {receipt : Receipt} (h : Consistent s)
    (hs : Moves s a number hash receipt s') : Consistent s' := by
  have hrow : ∀ j, (moveJob a number hash receipt j).status = j.status ∧
      (moveJob a number hash receipt j).slot = j.slot := by
    intro j
    unfold moveJob ownJob rewrite
    split
    · split <;> exact ⟨rfl,rfl⟩
    · exact ⟨rfl,rfl⟩
  exact h.still (moveRow_same a number hash) (moveJob_id a number hash receipt) hs.attempts
    hs.jobs hs.slots (moveRow_status a number hash) (fun j => (hrow j).1) (fun j => (hrow j).2)

end Settlements

section Bindings

variable {s s' : Store} {a : Attempt}

/-- The void drops what is broadcast at the nonce and nothing is mined there, so the owner
has no active attempt left. -/
theorem Consistent.void {epoch : Int} {mode : VoidMode} {disposition : VoidDisposition}
    {now : Nat} (h : Consistent s)
    (hi : (Op.voidBinding epoch a mode disposition now).Issued s)
    (hs : Voids s epoch a mode disposition now s') : Consistent s' := by
  obtain ⟨hhome,hnone⟩ := hi
  have hst : ∀ r, r.slot ≠ a.slot → (dropRow a.slot r).status = r.status := by
    intro r hne
    rw [dropRow_status,if_neg fun hx => hne hx.1]
  have haway : ∀ r ∈ s.txAttempts.rows, (dropRow a.slot r).active → r.slot ≠ a.slot := by
    intro r hr hact heq
    rw [AttemptRow.active,dropRow_status] at hact
    split at hact
    · simp at hact
    · next hx =>
      rcases hact with hb | hm
      · exact hx ⟨heq,hb⟩
      · exact hnone r hr heq hm
  have hkeep : ∀ r ∈ s.txAttempts.rows, (dropRow a.slot r).active → r.active := by
    intro r hr hact
    simpa only [AttemptRow.active,hst r (haway r hr hact)] using hact
  refine h.of_maps (dropRow_same a.slot) (voidJob_id a disposition now) hs.attempts hs.jobs
    ?_ ?_ ?_ ?_
  · intro r hr j hj hi hact
    have haw := haway r hr hact
    obtain ⟨hslot,hhost⟩ := h.fits r hr j hj hi (hkeep r hr hact)
    have ho : a.owner ≠ .job j.id := by
      intro ho
      have := hhome j.id ho j hj rfl
      exact haw (Option.some.inj (hslot.symm.trans this))
    rw [hst r haw,voidJob_other ho]
    exact ⟨hslot,hhost⟩
  · intro r hr i hi hact
    have haw := haway r hr hact
    rw [hs.slotOwner (.inl haw)]
    exact h.owns r hr i hi (hkeep r hr hact)
  · intro r hr r' hr' i hi hi' hb hm
    have haw := haway r hr (.inl hb)
    have haw' := haway r' hr' hm.active
    rw [hst r haw] at hb
    exact h.lone r hr r' hr' i hi hi' hb (by simpa only [AttemptRow.mined,hst r' haw'] using hm)
  · intro j hj st hjst
    have hsame : voidJob a disposition now j = j := by
      unfold voidJob at hjst ⊢
      split at hjst <;> unfold ownJob rewrite at hjst ⊢ <;> split at hjst <;>
        simp_all [JobRow.toRequeued,JobRow.toFailed,JobStatus.minedAs]
    rw [hsame] at hjst
    obtain ⟨r,hr,hi,hp,hrs⟩ := h.mined j hj st hjst
    refine ⟨r,hr,hi,hp,?_⟩
    rw [dropRow_status,if_neg,hrs]
    rintro ⟨-,hb⟩
    rw [hrs] at hb
    cases hjs : j.status <;> simp_all [JobStatus.minedAs]

/-- What a bind leaves of its owner's row. -/
theorem bindJob_own {kind : BindKind} {epoch : Int} {j : JobRow}
    (hi : (Op.bindAttempt epoch a kind).Issued s) (hj : j ∈ s.jobs.rows)
    (ho : a.owner = .job j.id) (hst : j.status ∈ kind.bindable) :
    (bindJob a kind j).slot = some a.slot ∧
      (bindJob a kind j).status ∈ hosts a.purpose .broadcast := by
  obtain ⟨hp,hk⟩ := hi j.id ho
  rw [bindJob,ownJob_of ho hst,hp]
  cases kind with
  | first =>
    rw [if_pos rfl] at hk
    refine ⟨?_,List.mem_cons_self⟩
    simp [JobRow.slot,JobRow.toSent,Attempt.slot,hk j hj rfl]
  | replacement => exact ⟨hk.1 j hj rfl,hst⟩
  | cancel => exact ⟨hk.1 j hj rfl,List.mem_singleton.mpr rfl⟩

/-- The attempts a bindable job already has still fit after the bind. -/
theorem bindJob_kept {kind : BindKind} {epoch : Int} {r : AttemptRow} {j : JobRow}
    (h : Consistent s) (hi : (Op.bindAttempt epoch a kind).Issued s) (hj : j ∈ s.jobs.rows)
    (hr : r ∈ s.txAttempts.rows) (hrj : r.jobId = some j.id) (hact : r.active)
    (ho : a.owner = .job j.id) (hst : j.status ∈ kind.bindable) :
    kind ≠ .first ∧ ¬ r.mined ∧ (bindJob a kind j).slot = some r.slot ∧
      (bindJob a kind j).status ∈ hosts r.purpose r.status := by
  obtain ⟨hslot,hhost⟩ := h.fits r hr j hj hrj hact
  obtain ⟨-,hk⟩ := hi j.id ho
  have hfirst : kind ≠ .first := by
    rintro rfl
    have hq : j.status = .queued := List.mem_singleton.mp hst
    rw [hq] at hhost
    rcases hact with hb | hb | hb <;> cases hp : r.purpose <;>
      simp [hb,hp,hosts] at hhost
  rw [if_neg hfirst] at hk
  have hrs : r.slot = a.slot := Option.some.inj (hslot.symm.trans (hk.1 j hj rfl))
  have hnm := hk.2 r hr hrs
  refine ⟨hfirst,hnm,?_⟩
  have hb : r.status = .broadcast := hact.resolve_right hnm
  rw [bindJob,ownJob_of ho hst]
  cases kind with
  | first => exact absurd rfl hfirst
  | replacement => exact ⟨hslot,hhost⟩
  | cancel =>
    refine ⟨hslot,?_⟩
    rw [hb]
    cases r.purpose <;> simp [hosts]

theorem Consistent.bind {epoch : Int} {kind : BindKind} (h : Consistent s)
    (hi : (Op.bindAttempt epoch a kind).Issued s) (hs : Bound s epoch a kind s') :
    Consistent s' := by
  obtain ⟨hnew,hslots⟩ := claimSlot_owner hs.slots
  have hjob : ∀ j' ∈ s'.jobs.rows, ∃ j ∈ s.jobs.rows, bindJob a kind j = j' := by
    rw [hs.jobs]
    exact fun _ => List.mem_map.mp
  have hbindable : ∀ j ∈ s.jobs.rows, a.owner = .job j.id → j.status ∈ kind.bindable := by
    intro j hj ho
    obtain ⟨j',hj',hid,hst⟩ := hs.owner j.id ho
    exact same_job hj hj' hid ▸ hst
  have hown : ∀ i, (AttemptRow.ofAttempt a).jobId = some i ↔ a.owner = .job i := fun i =>
    (AttemptRow.ofAttempt_isOf a).jobId_eq_some
  have hrow : ∀ x ∈ s'.txAttempts.rows, x ∈ s.txAttempts.rows ∨ x = .ofAttempt a := by
    intro x hx
    rw [hs.attempts] at hx
    simpa using hx
  constructor
  · intro x hx i hxi
    obtain ⟨j,hj,hid⟩ : ∃ j ∈ s.jobs.rows, j.id = i := by
      rcases hrow x hx with hx | rfl
      · exact h.owner x hx i hxi
      · obtain ⟨j,hj,hid,-⟩ := hs.owner i ((hown i).mp hxi)
        exact ⟨j,hj,hid⟩
    exact ⟨bindJob a kind j,by rw [hs.jobs]; exact List.mem_map_of_mem hj,
      (bindJob_id a kind j).trans hid⟩
  · intro x hx y hy hxy hact
    obtain ⟨j,hj,rfl⟩ := hjob y hy
    rw [bindJob_id] at hxy
    rcases hrow x hx with hx | rfl
    · by_cases ho : a.owner = .job j.id
      · exact (bindJob_kept h hi hj hx hxy hact ho (hbindable j hj ho)).2.2
      · rw [bindJob,ownJob_other ho]
        exact h.fits x hx j hj hxy hact
    · have ho := (hown j.id).mp hxy
      exact bindJob_own hi hj ho (hbindable j hj ho)
  · intro x hx i hxi hact
    rcases hrow x hx with hx | rfl
    · exact hslots _ _ (h.owns x hx i hxi hact)
    · rw [show (AttemptRow.ofAttempt a).slot = a.slot from rfl,hnew,(hown i).mp hxi]
      rfl
  · -- the new row is not mined; a mined row of the same job excludes the bind
    intro x hx x' hx' i hxi hxi' hb hm
    rcases hrow x' hx' with hx' | rfl
    · rcases hrow x hx with hx | rfl
      · exact h.lone x hx x' hx' i hxi hxi' hb hm
      · have ho := (hown i).mp hxi
        obtain ⟨j,hj,rfl,hst⟩ := hs.owner i ho
        exact (bindJob_kept h hi hj hx' hxi' hm.active ho hst).2.1 hm
    · simp [AttemptRow.mined,AttemptRow.ofAttempt] at hm
  · intro y hy st hst
    obtain ⟨j,hj,rfl⟩ := hjob y hy
    have hlive : j.status.minedAs = some st := by
      by_cases ho : a.owner = .job j.id
      · have hb := hbindable j hj ho
        rw [bindJob,ownJob_of ho hb] at hst
        cases kind with
        | first => cases hst
        | replacement => exact hst
        | cancel => cases hst
      · rwa [bindJob,ownJob_other ho] at hst
    obtain ⟨r,hr,hri,hp,hrs⟩ := h.mined j hj st hlive
    refine ⟨r,by rw [hs.attempts]; exact List.mem_append_left _ hr,?_,hp,hrs⟩
    rw [bindJob_id,hri]

end Bindings

section Jobs

variable {s s' : Store}

/-- A queued job has no active attempt, so its row may change as long as it stays unmined. -/
theorem Consistent.queued {id : JobId} {f : JobRow → JobRow} (h : Consistent s)
    (hs : JobsOnly s s') (hid : ∀ j, (f j).id = j.id)
    (hst : ∀ j : JobRow, j.status = .queued → (f j).status.minedAs = none)
    (hj : s'.jobs.rows = s.jobs.rows.map (rewrite (JobRow.whereIn id [.queued]) f)) :
    Consistent s' := by
  have hkeep : ∀ j : JobRow, j.status ≠ .queued →
      rewrite (JobRow.whereIn id [.queued]) f j = j := by
    intro j hne
    refine rewrite_of_not fun hx => hne ?_
    exact List.mem_singleton.mp (JobRow.whereIn_eq_true.mp hx).2
  refine h.of_maps (F := fun r => r) AttemptRow.Same.rfl'
    (rewrite_same JobRow.id (fun j _ => hid j)) (by rw [hs.attempts,List.map_id']) hj ?_ ?_ ?_ ?_
  · intro r hr j hj hi hact
    have hfit := h.fits r hr j hj hi hact
    have hne : j.status ≠ .queued := by
      intro hq
      rw [hq] at hfit
      rcases hact with hb | hb | hb <;> cases hp : r.purpose <;>
        simp [hb,hp,hosts] at hfit
    rw [hkeep j hne]
    exact hfit
  · intro r hr i hi hact
    rw [Store.slotOwnerId,hs.slots]
    exact h.owns r hr i hi hact
  · exact h.lone
  · intro j hj st hjst
    refine h.mined j hj st ?_
    unfold rewrite at hjst
    split at hjst
    · next hx =>
      rw [hst j (List.mem_singleton.mp (JobRow.whereIn_eq_true.mp hx).2)] at hjst
      cases hjst
    · exact hjst

theorem Consistent.insert {id : JobId} {request : JobRequest} (h : Consistent s)
    (hs : JobsOnly s s') (hfresh : ∀ j ∈ s.jobs.rows, j.id ≠ id)
    (hj : s'.jobs.rows = s.jobs.rows ++ [JobRow.new id request]) : Consistent s' := by
  have hjob : ∀ j ∈ s'.jobs.rows, j ∈ s.jobs.rows ∨ j = JobRow.new id request := by
    intro j hm
    rw [hj] at hm
    simpa using hm
  have hold : ∀ j ∈ s.jobs.rows, j ∈ s'.jobs.rows := by
    intro j hm
    rw [hj]
    exact List.mem_append_left _ hm
  constructor
  · intro r hr i hi
    rw [hs.attempts] at hr
    obtain ⟨j,hm,hid⟩ := h.owner r hr i hi
    exact ⟨j,hold j hm,hid⟩
  · intro r hr j hm hi hact
    rw [hs.attempts] at hr
    rcases hjob j hm with hm | rfl
    · exact h.fits r hr j hm hi hact
    · obtain ⟨j,hm,hid⟩ := h.owner r hr _ hi
      exact absurd hid (hfresh j hm)
  · intro r hr i hi hact
    rw [hs.attempts] at hr
    rw [Store.slotOwnerId,hs.slots]
    exact h.owns r hr i hi hact
  · rw [hs.attempts]
    exact h.lone
  · intro j hm st hst
    rw [hs.attempts]
    rcases hjob j hm with hm | rfl
    · exact h.mined j hm st hst
    · cases hst

theorem Consistent.failQueued {id : JobId} {failure : JobFailure} {message : String}
    {revertData : Option Bytes} (h : Consistent s) :
    Consistent (failJob s id [.queued] failure message revertData).2 := by
  obtain ⟨-,hj⟩ := failJob_spec (s := s) id failure message revertData
    (show ∀ x ∈ [JobStatus.queued], x.isTerminal = false by decide)
  refine h.queued (failJob_only s _ _ _ _ _) ?_ ?_ hj
  · intro j; rfl
  · intro j _; rfl

end Jobs

section Runs

variable {s s' : Store}

/-- Rows keep their immutable columns, so an attempt still names its row. -/
theorem Attempt.Names.of_map {a : Attempt} {F : AttemptRow → AttemptRow} (h : a.Names s)
    (hF : ∀ r, (F r).Same r) (ha : s'.txAttempts.rows = s.txAttempts.rows.map F) :
    a.Names s' := by
  intro x hx hid
  rw [ha] at hx
  obtain ⟨r,hr,rfl⟩ := List.mem_map.mp hx
  obtain ⟨h1,h2,h3,h4,h5⟩ := h r hr ((hF r).id ▸ hid)
  exact ⟨(hF r).slot.trans h1,(hF r).purpose.trans h2,(hF r).jobId.trans h3,
    (hF r).topupId.trans h4,(hF r).txHash.trans h5⟩

theorem Consistent.confirmInTx {a : Attempt} (h : Consistent s) (hn : a.Names s) :
    Consistent (GumEngine.confirmInTx s a).2 := by
  rcases confirmInTx_spec s a with hc | ⟨-,hc⟩
  · rwa [hc]
  · exact h.confirm hn hc

theorem Consistent.step (h : Consistent s) {op : Op} (hi : op.Issued s) :
    Consistent (op.apply s) := by
  cases op with
  | insertJob id request =>
    refine Store.commit_cases h fun s' hs => ?_
    obtain ⟨hs,hfresh,hj,-⟩ := insertJob_spec hs
    exact h.insert hs hfresh hj
  | createTopup id chainId treasury signer amount =>
    refine Store.commit_cases h fun s' hs => ?_
    obtain ⟨hs,hj,-⟩ := createTopup_spec hs
    obtain ⟨h1,h2,h3,h4,h5⟩ := h
    rw [← hs.attempts,← hj] at *
    refine ⟨h1,h2,?_,h4,h5⟩
    simpa only [Store.slotOwnerId,hs.slots] using h3
  | bindAttempt epoch a kind =>
    exact Store.commit_cases h fun s' hs => h.bind hi (bindAttempt_spec hs)
  | settleInclusion a inc confirmNow =>
    refine Store.commit_map_cases h fun st s' hs => ?_
    rcases settleInclusion_spec hs with ⟨-,rfl⟩ | ⟨-,m,hm,rfl⟩
    · exact h
    · have hc := h.settle hi hm
      split
      · exact hc.confirmInTx (hi.of_map (settleRow_same a inc) hm.attempts)
      · exact hc
  | settleConfirmation a => exact h.confirmInTx hi
  | updateInclusionBlock a number hash receipt =>
    exact h.move (updateInclusionBlock_spec s a number hash receipt)
  | demoteInclusion a =>
    show Consistent (GumEngine.demoteInclusion s a).2
    rcases demoteInclusion_spec s a with hd | ⟨-,hd⟩
    · rwa [hd]
    · exact h.demote hi hd
  | voidBinding epoch a mode disposition now =>
    exact Store.commit_cases h fun s' hs => h.void hi (voidBinding_spec hs)
  | failJob id allowed failure message revertData =>
    obtain rfl : allowed = [.queued] := hi
    exact h.failQueued
  | requeueFront id now =>
    refine Store.commit_map_cases h fun n s' hs => ?_
    obtain ⟨hs,-,hj⟩ := requeueFront_spec hs
    refine h.queued hs ?_ ?_ hj
    · intro j; rfl
    · intro j hq; exact congrArg JobStatus.minedAs hq
  | cancelQueued id => exact h.failQueued
  | acquire => exact ⟨h.owner,h.fits,h.owns,h.lone,h.mined⟩

theorem Consistent.empty : Consistent Store.empty := by
  constructor <;> intro x hx <;> cases hx

theorem Consistent.reaches (h : pipeline.Reaches Store.empty s) : Consistent s :=
  h.invariant .empty fun _ _ hs hi => hs.step hi

/-- The attempts that execute the job, as opposed to cancelling it. -/
def AttemptRow.Executes (r : AttemptRow) (s : Store) (j : JobRow) : Prop :=
  r ∈ s.txAttempts.rows ∧ r.jobId = some j.id ∧ r.purpose = .job

/-- What the rows of a job and of its attempts say about each other. -/
structure JobConsistent (s : Store) (j : JobRow) : Prop where
  home : ∀ r : AttemptRow, r.Executes s j → r.active →
    j.slot = some r.slot ∧ s.slotOwnerId r.slot = some j.id
  queued : j.status = .queued → ∀ r : AttemptRow, r.Executes s j → ¬ r.active
  sent : j.status = .sent ∨ j.status = .cancelling → ∀ r : AttemptRow, r.Executes s j → ¬ r.mined
  included : j.status = .included ↔ ∃! r : AttemptRow, r.Executes s j ∧ r.status = .included
  confirmed : j.status = .confirmed ↔ ∃! r : AttemptRow, r.Executes s j ∧ r.status = .confirmed
  failed : j.status = .failed → ∀ r : AttemptRow, r.Executes s j → ¬ r.mined

theorem Consistent.mined_iff (h : Consistent s) {j : JobRow} (hj : j ∈ s.jobs.rows)
    {jst : JobStatus} {st : AttemptStatus} (hjst : jst.minedAs = some st)
    (hhost : hosts .job st = [jst]) (hm : st = .included ∨ st = .confirmed) :
    j.status = jst ↔ ∃! r : AttemptRow, r.Executes s j ∧ r.status = st := by
  have hmined : ∀ r : AttemptRow, r.status = st → r.mined := by
    rintro r rfl
    exact hm
  constructor
  · rintro rfl
    obtain ⟨r,hr,hi,hp,hst⟩ := h.mined j hj st hjst
    refine ⟨r,⟨⟨hr,hi,hp⟩,hst⟩,?_⟩
    rintro r' ⟨⟨hr',hi',-⟩,hst'⟩
    exact h.only_active hr hr' hi hi' (hmined r hst) (hmined r' hst').active
  · rintro ⟨r,⟨⟨hr,hi,hp⟩,hst⟩,-⟩
    have hfit := (h.fits r hr j hj hi (hmined r hst).active).2
    rw [hp,hst,hhost] at hfit
    exact List.mem_singleton.mp hfit

/-- Whatever the order and repetition of the pipeline's transactions, jobs, attempts and
slots agree. -/
theorem jobs_consistent (h : pipeline.Reaches Store.empty s) :
    ∀ j ∈ s.jobs.rows, JobConsistent s j := by
  have hc := Consistent.reaches h
  intro j hj
  have hfit : ∀ r : AttemptRow, r.Executes s j → r.active →
      j.slot = some r.slot ∧ j.status ∈ hosts .job r.status := by
    rintro r ⟨hr,hi,hp⟩ hact
    have hf := hc.fits r hr j hj hi hact
    rwa [hp] at hf
  have hnot : ∀ st, j.status = st → (st ≠ .included ∧ st ≠ .confirmed) →
      ∀ r : AttemptRow, r.Executes s j → ¬ r.mined := by
    rintro st rfl ⟨hi,hc⟩ r hr hm
    have hf := (hfit r hr hm.active).2
    rcases hm with hm | hm <;> rw [hm] at hf
    · exact hi (List.mem_singleton.mp hf)
    · exact hc (List.mem_singleton.mp hf)
  refine ⟨?_,?_,?_,hc.mined_iff hj rfl rfl (.inl rfl),hc.mined_iff hj rfl rfl (.inr rfl),?_⟩
  · intro r hr hact
    exact ⟨(hfit r hr hact).1,hc.owns r hr.1 j.id hr.2.1 hact⟩
  · intro hq r hr hact
    have hf := (hfit r hr hact).2
    rw [hq] at hf
    rcases hact with hb | hb | hb <;> simp [hb,hosts] at hf
  · rintro (hs | hs)
    · exact hnot _ hs (by decide)
    · exact hnot _ hs (by decide)
  · intro hf
    exact hnot _ hf (by decide)

/-- A job that is replaced, cancelled and failed while a second one confirms. -/
def cancelOps : List Op :=
  let first := Sample.attempt 3 0 .job (.job 1)
  let dearer := Sample.attempt 4 0 .job (.job 1)
  let cancel := Sample.attempt 5 0 .cancel (.job 1)
  let other := Sample.attempt 6 1 .job (.job 2)
  [.insertJob 1 Sample.request,.insertJob 2 Sample.request,.bindAttempt 0 first .first,
    .bindAttempt 0 dearer .replacement,.bindAttempt 0 other .first,
    .bindAttempt 0 cancel .cancel,.settleInclusion cancel (Sample.inclusion 5 10 100) false,
    .settleInclusion other (Sample.inclusion 6 10 100) true,.settleInclusion first
      (Sample.inclusion 3 10 100) false,.settleConfirmation cancel]

theorem jobs_consistent_cancelled :
    ∃ s, pipeline.Reaches Store.empty s ∧
      s.jobs.rows.map (fun j => j.status) = [.failed,.confirmed] ∧
      ∀ j ∈ s.jobs.rows, JobConsistent s j := by
  have hrun : pipeline.Runs Store.empty cancelOps := by decide
  exact ⟨_,hrun.reaches,by decide,jobs_consistent hrun.reaches⟩

end Runs

end GumEngine
