import GumEngine.Leader.Rebuild

/-!
# From one leader to the next

The counters of a new leader are those its jobs are counted in from then on: what `start` rebuilds
for a chain, from any store that the transactions can leave, is what a run of its workers, handlers
and settlements needs to keep every job in one bucket.
-/

namespace GumEngine
open Relational Transition Sorting

/-! ## Bound jobs have a signer -/

/-- A job that is bound and not terminal has its signer. -/
def JobRow.HasSigner (j : JobRow) : Prop :=
  j.status ∈ [JobStatus.sent,.included,.cancelling] → j.signer.isSome = true

def Store.HaveSigners (s : Store) : Prop := ∀ j ∈ s.jobs.rows, j.HasSigner

section Signers

variable {s s' : Store} {a : Attempt}

theorem Store.HaveSigners.map {F : JobRow → JobRow} (h : s.HaveSigners)
    (hF : ∀ j : JobRow, j.HasSigner → (F j).HasSigner) (hm : s'.jobs.rows = s.jobs.rows.map F) :
    s'.HaveSigners := by
  intro x hx
  obtain ⟨j,hj,rfl⟩ := List.mem_map.mp (hm ▸ hx)
  exact hF j (h j hj)

theorem Store.HaveSigners.same (h : s.HaveSigners) (hm : s'.jobs.rows = s.jobs.rows) :
    s'.HaveSigners := by
  intro j hj
  exact h j (hm ▸ hj)

theorem JobRow.HasSigner.rewrite {p : JobRow → Bool} {f : JobRow → JobRow} {j : JobRow}
    (h : j.HasSigner) (hf : p j = true → (f j).HasSigner) : (rewrite p f j).HasSigner := by
  unfold Relational.rewrite
  split
  · next hp => exact hf hp
  · exact h

theorem JobRow.HasSigner.own {st : List JobStatus} {f : JobRow → JobRow} {j : JobRow}
    (h : j.HasSigner) (hf : j.status ∈ st → (f j).HasSigner) : (ownJob a st f j).HasSigner := by
  refine h.rewrite fun hp => hf ?_
  simp only [Bool.and_eq_true,decide_eq_true_eq] at hp
  exact hp.2

/-- A move between the statuses of bound jobs that keeps the signer. -/
theorem JobRow.HasSigner.move {j j' : JobRow} (st : List JobStatus) (h : j.HasSigner)
    (hst : ∀ x ∈ st, x ∈ [JobStatus.sent,.included,.cancelling]) (hj : j.status ∈ st)
    (hs : j'.signer = j.signer) : j'.HasSigner := by
  intro _
  rw [hs]
  exact h (hst _ hj)

theorem JobRow.HasSigner.ended {j : JobRow} (h : j.status ∉ [JobStatus.sent,.included,.cancelling]) :
    j.HasSigner :=
  fun hst => absurd hst h

theorem bindJob_hasSigner (a : Attempt) (kind : BindKind) {j : JobRow} (h : j.HasSigner) :
    (bindJob a kind j).HasSigner := by
  refine h.own fun hst => ?_
  cases kind with
  | first => exact fun _ => rfl
  | replacement => exact h.move [.sent,.cancelling] (by decide) hst rfl
  | cancel => exact h.move [.sent,.cancelling] (by decide) hst rfl

theorem includeJob_hasSigner (a : Attempt) (inc : Inclusion) {j : JobRow} (h : j.HasSigner) :
    (includeJob a inc j).HasSigner := by
  unfold includeJob
  split
  · exact h.own fun hst => h.move [.sent,.cancelling] (by decide) hst rfl
  · exact h

theorem confirmJob_hasSigner (a : Attempt) {j : JobRow} (h : j.HasSigner) :
    (confirmJob a j).HasSigner := by
  unfold confirmJob
  split
  · exact h.own fun _ => .ended (by simp [JobRow.toConfirmed])
  · exact h.own fun _ => .ended (by simp [JobRow.toFailed])

theorem moveJob_hasSigner (a : Attempt) (number : Nat) (hash : B256) (receipt : Receipt) {j : JobRow}
    (h : j.HasSigner) : (moveJob a number hash receipt j).HasSigner := by
  unfold moveJob
  split
  · exact h.own fun hst => h.move [.included] (by decide) hst rfl
  · exact h

theorem demoteJob_hasSigner (a : Attempt) {j : JobRow} (h : j.HasSigner) :
    (demoteJob a j).HasSigner := by
  unfold demoteJob
  split
  · exact h.own fun hst => h.move [.included] (by decide) hst rfl
  · exact h

theorem voidJob_hasSigner (a : Attempt) (disposition : VoidDisposition) (now : Nat) {j : JobRow}
    (h : j.HasSigner) : (voidJob a disposition now j).HasSigner := by
  cases disposition with
  | requeue => exact h.own fun _ => .ended (by simp [JobRow.toRequeued])
  | fail failure message => exact h.own fun _ => .ended (by simp [JobRow.toFailed])

theorem Store.HaveSigners.confirmInTx (h : s.HaveSigners) (a : Attempt) :
    (confirmInTx s a).2.HaveSigners := by
  rcases confirmInTx_spec s a with heq | ⟨-,hc⟩
  · rwa [heq]
  · exact h.map (fun _ => confirmJob_hasSigner a) hc.jobs

theorem Store.HaveSigners.step (h : s.HaveSigners) {op : Op} (hop : op.FailsLive) :
    (op.apply s).HaveSigners := by
  have hfail : ∀ id allowed failure message revertData, (∀ x ∈ allowed, x.isTerminal = false) →
      (failJob s id allowed failure message revertData).2.HaveSigners := by
    intro id allowed failure message revertData hlive
    refine h.map (fun j hj => ?_) (failJob_spec id failure message revertData hlive).2
    exact hj.rewrite fun _ => .ended (by simp [JobRow.toFailed])
  cases op with
  | insertJob id request =>
    refine Store.commit_cases h fun s' hs => ?_
    intro j hj
    rw [(insertJob_spec hs).2.2.1] at hj
    rcases List.mem_append.mp hj with hj | hj
    · exact h j hj
    · rw [List.mem_singleton.mp hj]
      exact .ended (by simp [JobRow.new])
  | createTopup id chainId treasury signer amount =>
    exact Store.commit_cases h fun s' hs => h.same (by rw [(createTopup_spec hs).2.1])
  | bindAttempt epoch a kind =>
    exact Store.commit_cases h fun s' hs =>
      h.map (fun _ => bindJob_hasSigner a kind) (bindAttempt_spec hs).jobs
  | settleInclusion a inc confirmNow =>
    refine Store.commit_map_cases (I := Store.HaveSigners) h fun st s' hs => ?_
    rcases settleInclusion_spec hs with ⟨-,rfl⟩ | ⟨-,m,hm,rfl⟩
    · exact h
    · have hincluded : m.HaveSigners := h.map (fun _ => includeJob_hasSigner a inc) hm.jobs
      split
      · exact hincluded.confirmInTx a
      · exact hincluded
  | settleConfirmation a => exact h.confirmInTx a
  | updateInclusionBlock a number hash receipt =>
    exact h.map (fun _ => moveJob_hasSigner a number hash receipt)
      (updateInclusionBlock_spec s a number hash receipt).jobs
  | demoteInclusion a =>
    rcases demoteInclusion_spec s a with heq | ⟨-,hd⟩
    · exact h.same (congrArg (fun r => r.2.jobs.rows) heq)
    · exact h.map (fun _ => demoteJob_hasSigner a) hd.jobs
  | voidBinding epoch a mode disposition now =>
    exact Store.commit_cases h fun s' hs =>
      h.map (fun _ => voidJob_hasSigner a disposition now) (voidBinding_spec hs).jobs
  | failJob id allowed failure message revertData => exact hfail _ _ _ _ _ hop
  | requeueFront id now =>
    refine Store.commit_map_cases (I := Store.HaveSigners) h fun n s' hs => ?_
    refine h.map (fun j hj => ?_) (requeueFront_spec hs).2.2
    refine hj.rewrite fun hp => .ended ?_
    simp only [JobRow.whereIn,Bool.and_eq_true,decide_eq_true_eq,List.mem_singleton] at hp
    simp [hp.2]
  | cancelQueued id => exact hfail _ _ _ _ _ (by decide)
  | acquire => exact h

theorem Store.HaveSigners.reaches (h : ledger.Reaches Store.empty s) : s.HaveSigners :=
  h.invariant (fun _ hj => by cases hj) fun _ _ hs hop => hs.step hop.failsLive

end Signers


/-! ## One chain of the store -/

/-- A signer among those the chain has. -/
def knownSigner (signers : Finset Address) (a : Option Address) : Option signers :=
  a.bind fun a => if h : a ∈ signers then some ⟨a,h⟩ else none

def JobRow.storedAt (signers : Finset Address) (j : JobRow) : Option (StoredAt signers) :=
  match j.status with
  | .queued => some .queued
  | .sent | .cancelling => (knownSigner signers j.signer).map .sent
  | .included => (knownSigner signers j.signer).map .included
  | .confirmed => some (.ended (knownSigner signers j.signer) j.bucket.toBucket)
  | .failed => some (.ended (knownSigner signers j.signer) .failed)

namespace Store

variable (s : Store) (chain : ChainId) (signers : Finset Address)

def jobAt (id : JobId) : Option JobRow :=
  s.jobs.rows.find? fun j => j.id = id && j.request.chainId = chain

def storedAt (id : JobId) : Option (StoredAt signers) :=
  (s.jobAt chain id).bind (JobRow.storedAt signers)

/-- The rows of the chain that are past their queue. -/
def pastRows : List JobRow :=
  s.jobs.rows.filter fun j => j.request.chainId = chain && j.status ≠ .queued

end Store

/-- The bucket of a job past its queue, under its own chain. -/
def JobRow.pastBucket (j : JobRow) : Bucket :=
  match j.status with
  | .confirmed => j.bucket.toBucket
  | .failed => .failed
  | .included => .included
  | _ => .inFlight

/-- Every job of the chain past its queue, in the bucket of its row. -/
def Store.book (s : Store) (chain : ChainId) (signers : Finset Address) :
    Buckets JobId (StatsSlot signers) where
  items := ((s.pastRows chain).map JobRow.id).toFinset
  place id :=
    match s.jobAt chain id with
    | some j => (knownSigner signers j.signer,j.pastBucket)
    | none => (none,.queued)

section Chain

variable {s : Store} {chain : ChainId} {signers : Finset Address}

theorem Store.jobAt_some {id : JobId} {j : JobRow} (h : s.jobAt chain id = some j) :
    j ∈ s.jobs.rows ∧ j.id = id ∧ j.request.chainId = chain := by
  refine ⟨List.mem_of_find?_eq_some h,?_⟩
  simpa using List.find?_some h

theorem Store.jobAt_of_mem {j : JobRow} (hj : j ∈ s.jobs.rows) (hc : j.request.chainId = chain) :
    s.jobAt chain j.id = some j := by
  cases hf : s.jobAt chain j.id with
  | none =>
    rw [jobAt,List.find?_eq_none] at hf
    exact absurd (by simp [hc]) (hf j hj)
  | some x =>
    obtain ⟨hx,hid,-⟩ := jobAt_some hf
    rw [s.jobs.eq_of_key hx hj hid]

/-- Every signer of the chain is one of `signers`. -/
def Store.SignersKnown (s : Store) (chain : ChainId) (signers : Finset Address) : Prop :=
  ∀ j ∈ s.jobs.rows, j.request.chainId = chain → ∀ a ∈ j.signer, a ∈ signers

theorem Store.mem_pastRows {j : JobRow} :
    j ∈ s.pastRows chain ↔ j ∈ s.jobs.rows ∧ j.request.chainId = chain ∧ j.status ≠ .queued := by
  simp [pastRows]

theorem mem_loadLiveJobs {j : JobRow} :
    j ∈ loadLiveJobs s chain ↔ j ∈ s.jobs.rows ∧ j.request.chainId = chain ∧
      j.status ∈ [JobStatus.sent,.included,.cancelling] := by
  simp only [loadLiveJobs,List.mem_filter,Bool.and_eq_true,decide_eq_true_eq]

/-- A bound job has its signer among the known ones. -/
theorem Store.HaveSigners.known (h : s.HaveSigners) (hk : s.SignersKnown chain signers) {j : JobRow}
    (hj : j ∈ loadLiveJobs s chain) : ∃ a, knownSigner signers j.signer = some a := by
  obtain ⟨hmem,hc,hst⟩ := mem_loadLiveJobs.mp hj
  obtain ⟨a,ha⟩ := Option.isSome_iff_exists.mp (h j hmem hst)
  refine ⟨⟨a,hk j hmem hc a ha⟩,?_⟩
  simp [knownSigner,ha,hk j hmem hc a ha]

theorem JobRow.storedAt_queued {j : JobRow} (h : j.HasSigner)
    (hk : ∀ a ∈ j.signer, a ∈ signers) :
    j.storedAt signers ≠ none ∧ (j.storedAt signers = some .queued ↔ j.status = .queued) := by
  have hsome : j.status ∈ [JobStatus.sent,.included,.cancelling] →
      ∃ a, knownSigner signers j.signer = some a := by
    intro hst
    obtain ⟨a,ha⟩ := Option.isSome_iff_exists.mp (h hst)
    exact ⟨⟨a,hk a ha⟩,by simp [knownSigner,ha,hk a ha]⟩
  cases hst : j.status with
  | queued => simp [storedAt,hst]
  | sent =>
    obtain ⟨a,ha⟩ := hsome (by simp [hst])
    simp [storedAt,hst,ha]
  | cancelling =>
    obtain ⟨a,ha⟩ := hsome (by simp [hst])
    simp [storedAt,hst,ha]
  | included =>
    obtain ⟨a,ha⟩ := hsome (by simp [hst])
    simp [storedAt,hst,ha]
  | confirmed => simp [storedAt,hst]
  | failed => simp [storedAt,hst]

end Chain


/-! ## What the next leader starts from -/

section Rebuilds

variable {s : Store} {chain : ChainId} {signers : Finset Address} {before : List (ChainId × Nat)}

theorem Store.HaveSigners.stored (h : s.HaveSigners) (hk : s.SignersKnown chain signers) (id : JobId) :
    (∃ j ∈ s.pastRows chain, j.id = id) ↔
      s.storedAt chain signers id ≠ none ∧ s.storedAt chain signers id ≠ some .queued := by
  unfold Store.storedAt
  constructor
  · rintro ⟨j,hj,rfl⟩
    obtain ⟨hmem,hc,hst⟩ := mem_pastRows.mp hj
    obtain ⟨hsome,hq⟩ := JobRow.storedAt_queued (h j hmem) (hk j hmem hc)
    rw [jobAt_of_mem hmem hc]
    exact ⟨hsome,fun heq => hst (hq.mp heq)⟩
  · rintro ⟨hsome,hq⟩
    cases hj : s.jobAt chain id with
    | none =>
      rw [hj] at hsome
      exact absurd rfl hsome
    | some j =>
      obtain ⟨hmem,hid,hc⟩ := jobAt_some hj
      rw [hj] at hq
      refine ⟨j,mem_pastRows.mpr ⟨hmem,hc,fun hst => hq ?_⟩,hid⟩
      exact (JobRow.storedAt_queued (h j hmem) (hk j hmem hc)).2.mpr hst

end Rebuilds

instance (s : Store) (chain : ChainId) (signers : Finset Address) :
    Decidable (s.SignersKnown chain signers) :=
  inferInstanceAs (Decidable (∀ j ∈ s.jobs.rows, j.request.chainId = chain → ∀ a ∈ j.signer, a ∈ signers))

end GumEngine
