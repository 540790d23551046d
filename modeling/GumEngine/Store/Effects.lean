import GumEngine.Store.Attempts

/-!
# What each operation does to a row

Every operation rewrites the rows of `tx_attempts` and `jobs` one by one, apart from
the row a bind appends. Its effect is stated once, as a function on rows; the laws of
the store are then statements about these functions.
-/

namespace GumEngine
open Relational

variable {s s' : Store} {a : Attempt}

/-- The immutable columns of a row are those of the attempt `a`. -/
structure AttemptRow.IsOf (r : AttemptRow) (a : Attempt) : Prop where
  slot : r.slot = a.slot
  purpose : r.purpose = a.purpose
  jobId : r.jobId = a.owner.jobId
  topupId : r.topupId = a.owner.topupId
  txHash : r.txHash = a.txHash

/-- `a` is what was bound, or loaded, under its id; an id never bound names nothing. -/
def Attempt.Names (a : Attempt) (s : Store) : Prop :=
  ∀ r ∈ s.txAttempts.rows, r.id = a.id → r.IsOf a

theorem AttemptRow.ofAttempt_isOf (a : Attempt) : (ofAttempt a).IsOf a :=
  ⟨rfl,rfl,rfl,rfl,rfl⟩

/-- Rows that share all immutable columns. -/
structure AttemptRow.Same (r r' : AttemptRow) : Prop where
  id : r.id = r'.id
  chainId : r.chainId = r'.chainId
  signer : r.signer = r'.signer
  nonce : r.nonce = r'.nonce
  purpose : r.purpose = r'.purpose
  jobId : r.jobId = r'.jobId
  topupId : r.topupId = r'.topupId
  txHash : r.txHash = r'.txHash

theorem AttemptRow.Same.rfl' (r : AttemptRow) : r.Same r :=
  ⟨rfl,rfl,rfl,rfl,rfl,rfl,rfl,rfl⟩

theorem AttemptRow.Same.slot {r r' : AttemptRow} (h : r.Same r') : r.slot = r'.slot := by
  unfold AttemptRow.slot
  rw [h.chainId,h.signer,h.nonce]

theorem AttemptRow.Same.trans {r r' r'' : AttemptRow} (h : r.Same r') (h' : r'.Same r'') :
    r.Same r'' :=
  ⟨h.id.trans h'.id,h.chainId.trans h'.chainId,h.signer.trans h'.signer,
    h.nonce.trans h'.nonce,h.purpose.trans h'.purpose,h.jobId.trans h'.jobId,
    h.topupId.trans h'.topupId,h.txHash.trans h'.txHash⟩

theorem AttemptRow.Same.isOf {r r' : AttemptRow} {a : Attempt} (h : r'.Same r) (ho : r.IsOf a) :
    r'.IsOf a :=
  ⟨h.slot.trans ho.slot,h.purpose.trans ho.purpose,h.jobId.trans ho.jobId,
    h.topupId.trans ho.topupId,h.txHash.trans ho.txHash⟩

theorem AttemptRow.Same.owner {r r' : AttemptRow} (h : r'.Same r) : r'.owner = r.owner := by
  unfold AttemptRow.owner
  rw [h.jobId,h.topupId]

theorem AttemptRow.same_rewrite {p : AttemptRow → Bool} {f : AttemptRow → AttemptRow}
    (h : ∀ r, (f r).Same r) (r : AttemptRow) : (rewrite p f r).Same r := by
  unfold rewrite
  split
  · exact h r
  · exact .rfl' r

/-! ## Rows of `tx_attempts` -/

def settleRow (a : Attempt) (inc : Inclusion) (r : AttemptRow) : AttemptRow :=
  rewrite (AttemptRow.whereSibling a) (fun r => { r with status := .replaced })
    (rewrite (AttemptRow.whereIn a.id [.broadcast]) (AttemptRow.toIncluded inc) r)

def confirmRow (a : Attempt) (r : AttemptRow) : AttemptRow :=
  rewrite (AttemptRow.whereSlot a.slot .replaced) (fun r => { r with rawTx := none })
    (rewrite (AttemptRow.whereIn a.id [.included])
      (fun r => { r with status := .confirmed, rawTx := none }) r)

def moveRow (a : Attempt) (number : Nat) (hash : B256) : AttemptRow → AttemptRow :=
  rewrite (AttemptRow.whereIn a.id [.included])
    fun r => { r with blockNumber := some number, blockHash := some hash }

def demoteRow (a : Attempt) : AttemptRow → AttemptRow :=
  rewrite (AttemptRow.whereIn a.id [.included])
    fun r => { r with status := .broadcast, blockNumber := none, blockHash := none }

def dropRow (k : Slot) : AttemptRow → AttemptRow :=
  rewrite (AttemptRow.whereSlot k .broadcast)
    fun r => { r with status := .dropped, rawTx := none }

/-- A rewriting that keeps the immutable columns, drops no row, and brings none back to
life. -/
structure AttemptRow.Gentle (F : AttemptRow → AttemptRow) : Prop where
  same : ∀ r, (F r).Same r
  live : ∀ r, (F r).live → r.live ∧ (F r).rawTx = r.rawTx
  dropped : ∀ r, (F r).status = .dropped ↔ r.status = .dropped

theorem AttemptRow.Gentle.id' : Gentle fun r => r := ⟨.rfl',fun _ h => ⟨h,rfl⟩,fun _ => .rfl⟩

theorem AttemptRow.Gentle.comp {F G : AttemptRow → AttemptRow} (hG : Gentle G) (hF : Gentle F) :
    Gentle fun r => G (F r) := by
  refine ⟨fun r => (hG.same _).trans (hF.same r),?_,fun r => (hG.dropped _).trans (hF.dropped r)⟩
  intro r h
  obtain ⟨hl,hg⟩ := hG.live _ h
  obtain ⟨hl,hf⟩ := hF.live _ hl
  exact ⟨hl,hg.trans hf⟩

theorem AttemptRow.gentle_rewrite {p : AttemptRow → Bool} {f : AttemptRow → AttemptRow}
    (hs : ∀ r, (f r).Same r)
    (hl : ∀ r, p r = true → (f r).live → r.live ∧ (f r).rawTx = r.rawTx)
    (hd : ∀ r, p r = true → ((f r).status = .dropped ↔ r.status = .dropped)) :
    Gentle (rewrite p f) := by
  refine ⟨AttemptRow.same_rewrite hs,?_,?_⟩ <;> intro r <;> unfold rewrite <;> split
  · next hp => exact hl r hp
  · exact fun h => ⟨h,rfl⟩
  · next hp => exact hd r hp
  · exact .rfl

theorem settleRow_gentle (a : Attempt) (inc : Inclusion) :
    AttemptRow.Gentle (settleRow a inc) := by
  have hs : AttemptRow.Gentle (rewrite (AttemptRow.whereSibling a)
      fun r => { r with status := .replaced }) := by
    refine AttemptRow.gentle_rewrite ?_ ?_ ?_
    · intro r; constructor <;> rfl
    · intro r _ h; simp [AttemptRow.live] at h
    · intro r hp; simp_all [AttemptRow.whereSibling]
  have hi : AttemptRow.Gentle (rewrite (AttemptRow.whereIn a.id [.broadcast])
      (AttemptRow.toIncluded inc)) := by
    refine AttemptRow.gentle_rewrite ?_ ?_ ?_
    · intro r; constructor <;> rfl
    · intro r hp _; exact ⟨.inl (by simp_all [AttemptRow.whereIn]),rfl⟩
    · intro r hp; simp_all [AttemptRow.whereIn,AttemptRow.toIncluded]
  exact hs.comp hi

theorem confirmRow_gentle (a : Attempt) : AttemptRow.Gentle (confirmRow a) := by
  have hf : AttemptRow.Gentle (rewrite (AttemptRow.whereSlot a.slot .replaced)
      fun r => { r with rawTx := none }) := by
    refine AttemptRow.gentle_rewrite ?_ ?_ ?_
    · intro r; constructor <;> rfl
    · intro r hp h; simp_all [AttemptRow.whereSlot,AttemptRow.live]
    · intro r _; exact .rfl
  have hc : AttemptRow.Gentle (rewrite (AttemptRow.whereIn a.id [.included])
      fun r => { r with status := .confirmed, rawTx := none }) := by
    refine AttemptRow.gentle_rewrite ?_ ?_ ?_
    · intro r; constructor <;> rfl
    · intro r _ h; simp [AttemptRow.live] at h
    · intro r hp; simp_all [AttemptRow.whereIn]
  exact hf.comp hc

theorem moveRow_gentle (a : Attempt) (number : Nat) (hash : B256) :
    AttemptRow.Gentle (moveRow a number hash) := by
  refine AttemptRow.gentle_rewrite ?_ ?_ ?_
  · intro r; constructor <;> rfl
  · intro r _ h; exact ⟨h,rfl⟩
  · intro r _; exact .rfl

theorem demoteRow_gentle (a : Attempt) : AttemptRow.Gentle (demoteRow a) := by
  refine AttemptRow.gentle_rewrite ?_ ?_ ?_
  · intro r; constructor <;> rfl
  · intro r hp _; exact ⟨.inr (by simp_all [AttemptRow.whereIn]),rfl⟩
  · intro r hp; simp_all [AttemptRow.whereIn]

theorem settleRow_same (a : Attempt) (inc : Inclusion) (r : AttemptRow) :
    (settleRow a inc r).Same r :=
  (settleRow_gentle a inc).same r

theorem confirmRow_same (a : Attempt) (r : AttemptRow) : (confirmRow a r).Same r :=
  (confirmRow_gentle a).same r

theorem moveRow_same (a : Attempt) (number : Nat) (hash : B256) (r : AttemptRow) :
    (moveRow a number hash r).Same r :=
  (moveRow_gentle a number hash).same r

theorem demoteRow_same (a : Attempt) (r : AttemptRow) : (demoteRow a r).Same r :=
  (demoteRow_gentle a).same r

theorem dropRow_same (k : Slot) (r : AttemptRow) : (dropRow k r).Same r := by
  refine AttemptRow.same_rewrite ?_ r
  intro r; constructor <;> rfl

theorem dropRow_live (k : Slot) (r : AttemptRow) (h : (dropRow k r).live) :
    r.live ∧ (dropRow k r).rawTx = r.rawTx := by
  unfold dropRow rewrite at h ⊢
  split at h
  · simp [AttemptRow.live] at h
  · next hp => exact ⟨h,by rw [if_neg hp]⟩

/-- The status of a row after a settlement of `a`. -/
theorem settleRow_status (a : Attempt) (inc : Inclusion) (r : AttemptRow) :
    (settleRow a inc r).status =
      if r.status = .broadcast then
        if r.id = a.id then .included else if r.slot = a.slot then .replaced else .broadcast
      else r.status := by
  by_cases hb : r.status = .broadcast <;> by_cases hi : r.id = a.id <;>
    by_cases hs : r.slot = a.slot <;>
    simp_all [settleRow,rewrite,AttemptRow.whereIn,AttemptRow.whereSibling,
      AttemptRow.toIncluded,AttemptRow.slot]

theorem confirmRow_status (a : Attempt) (r : AttemptRow) :
    (confirmRow a r).status =
      if r.id = a.id ∧ r.status = .included then .confirmed else r.status := by
  by_cases hb : r.status = .included <;> by_cases hi : r.id = a.id <;>
    simp_all [confirmRow,rewrite,AttemptRow.whereIn,AttemptRow.whereSlot] <;> split <;> simp_all

theorem moveRow_status (a : Attempt) (number : Nat) (hash : B256) (r : AttemptRow) :
    (moveRow a number hash r).status = r.status := by
  simp only [moveRow,rewrite]
  split <;> rfl

theorem demoteRow_status (a : Attempt) (r : AttemptRow) :
    (demoteRow a r).status =
      if r.id = a.id ∧ r.status = .included then .broadcast else r.status := by
  by_cases hb : r.status = .included <;> by_cases hi : r.id = a.id <;>
    simp_all [demoteRow,rewrite,AttemptRow.whereIn]

theorem dropRow_status (k : Slot) (r : AttemptRow) :
    (dropRow k r).status =
      if r.slot = k ∧ r.status = .broadcast then .dropped else r.status := by
  by_cases hb : r.status = .broadcast <;> by_cases hs : r.slot = k <;>
    simp_all [dropRow,rewrite,AttemptRow.whereSlot]

/-! ## Rows of `jobs` -/

/-- Rewrites the job that owns `a`, when it is in one of the statuses `st`. -/
def ownJob (a : Attempt) (st : List JobStatus) (f : JobRow → JobRow) (j : JobRow) : JobRow :=
  rewrite (fun j => a.owner = .job j.id && j.status ∈ st) f j

/-- The statuses a bind expects its job in. -/
def BindKind.bindable : BindKind → List JobStatus
  | .first => [.queued]
  | .replacement | .cancel => [.sent,.cancelling]

def bindJob (a : Attempt) (kind : BindKind) : JobRow → JobRow :=
  ownJob a kind.bindable fun j =>
    match kind with
    | .first => j.toSent a
    | .replacement => { j with txHash := some a.txHash }
    | .cancel => { j with status := .cancelling }

def includeJob (a : Attempt) (inc : Inclusion) (j : JobRow) : JobRow :=
  if a.purpose = .job then ownJob a [.sent,.cancelling] (JobRow.toIncluded inc) j else j

def confirmJob (a : Attempt) (j : JobRow) : JobRow :=
  if a.purpose = .job then ownJob a [.included] JobRow.toConfirmed j
  else ownJob a [.cancelling] (JobRow.toFailed .stuckCancelled
    "the transaction could not be mined within the fee cap; its nonce was cancelled") j

def moveJob (a : Attempt) (number : Nat) (hash : B256) (receipt : Receipt) (j : JobRow) : JobRow :=
  if a.purpose = .job then ownJob a [.included] (JobRow.moveTo number hash receipt) j else j

def demoteJob (a : Attempt) (j : JobRow) : JobRow :=
  if a.purpose = .job then ownJob a [.included] JobRow.toDemoted j else j

def voidJob (a : Attempt) (disposition : VoidDisposition) (now : Nat) : JobRow → JobRow :=
  match disposition with
  | .requeue => ownJob a [.sent,.cancelling] (JobRow.toRequeued now)
  | .fail failure message => ownJob a [.sent,.cancelling] (JobRow.toFailed failure message)

theorem ownJob_of {st : List JobStatus} {f : JobRow → JobRow} {j : JobRow}
    (ho : a.owner = .job j.id) (hs : j.status ∈ st) : ownJob a st f j = f j :=
  rewrite_of (by simp [ho,hs])

theorem ownJob_of_not {st : List JobStatus} {f : JobRow → JobRow} {j : JobRow}
    (h : ¬ (a.owner = .job j.id ∧ j.status ∈ st)) : ownJob a st f j = j :=
  rewrite_of_not (by simpa using h)

/-- Updating the owner's row is the row function `ownJob` on the whole table. -/
theorem rows_ownJob {id : JobId} (ho : a.owner = .job id) (st : List JobStatus)
    (f : JobRow → JobRow) (rows : List JobRow) :
    rows.map (rewrite (JobRow.whereIn id st) f) = rows.map (ownJob a st f) := by
  apply List.map_congr_left
  intro j _
  simp only [rewrite,ownJob,JobRow.whereIn,ho,SlotOwner.job.injEq,eq_comm]

/-- An owner that is no job leaves every job alone. -/
theorem ownJob_topup {t : Uuid} (ho : a.owner = .topup t) (st : List JobStatus)
    (f : JobRow → JobRow) (j : JobRow) : ownJob a st f j = j :=
  ownJob_of_not (by simp [ho])

theorem rows_same {f : JobRow → JobRow} (h : ∀ j, f j = j) (rows : List JobRow) :
    rows.map f = rows := by
  rw [funext h]
  exact List.map_id' rows

theorem AttemptRow.IsOf.jobId_eq_some {r : AttemptRow} (h : r.IsOf a) {i : JobId} :
    r.jobId = some i ↔ a.owner = .job i := by
  rw [h.jobId]
  cases a.owner <;> simp [SlotOwner.jobId]

theorem ownJob_id {st : List JobStatus} {f : JobRow → JobRow} (hf : ∀ j, (f j).id = j.id)
    (j : JobRow) : (ownJob a st f j).id = j.id :=
  rewrite_same JobRow.id (fun j _ => hf j) j

theorem ownJob_other {st : List JobStatus} {f : JobRow → JobRow} {j : JobRow}
    (h : a.owner ≠ .job j.id) : ownJob a st f j = j :=
  ownJob_of_not fun hx => h hx.1

theorem bindJob_id (a : Attempt) (kind : BindKind) (j : JobRow) : (bindJob a kind j).id = j.id :=
  ownJob_id (by intro j; cases kind <;> rfl) j

theorem includeJob_id (a : Attempt) (inc : Inclusion) (j : JobRow) :
    (includeJob a inc j).id = j.id := by
  unfold includeJob
  split
  · exact ownJob_id (by intro j; rfl) j
  · rfl

theorem confirmJob_id (a : Attempt) (j : JobRow) : (confirmJob a j).id = j.id := by
  unfold confirmJob
  split <;> exact ownJob_id (by intro j; rfl) j

theorem moveJob_id (a : Attempt) (number : Nat) (hash : B256) (receipt : Receipt) (j : JobRow) :
    (moveJob a number hash receipt j).id = j.id := by
  unfold moveJob
  split
  · exact ownJob_id (by intro j; rfl) j
  · rfl

theorem demoteJob_id (a : Attempt) (j : JobRow) : (demoteJob a j).id = j.id := by
  unfold demoteJob
  split
  · exact ownJob_id (by intro j; rfl) j
  · rfl

theorem voidJob_id (a : Attempt) (disposition : VoidDisposition) (now : Nat) (j : JobRow) :
    (voidJob a disposition now j).id = j.id := by
  unfold voidJob
  split <;> exact ownJob_id (by intro j; rfl) j

theorem includeJob_other {inc : Inclusion} {j : JobRow}
    (h : ¬ (a.owner = .job j.id ∧ a.purpose = .job)) : includeJob a inc j = j := by
  unfold includeJob
  split
  · next hp => exact ownJob_other fun ho => h ⟨ho,hp⟩
  · rfl

theorem confirmJob_other {j : JobRow} (h : a.owner ≠ .job j.id) : confirmJob a j = j := by
  unfold confirmJob
  split <;> exact ownJob_other h

theorem demoteJob_other {j : JobRow} (h : ¬ (a.owner = .job j.id ∧ a.purpose = .job)) :
    demoteJob a j = j := by
  unfold demoteJob
  split
  · next hp => exact ownJob_other fun ho => h ⟨ho,hp⟩
  · rfl

theorem voidJob_other {disposition : VoidDisposition} {now : Nat} {j : JobRow}
    (h : a.owner ≠ .job j.id) : voidJob a disposition now j = j := by
  unfold voidJob
  split <;> exact ownJob_other h

/-! ## What the outbox and the rollup see -/

/-- The rollup counter a job is counted in, once it is terminal. -/
def JobRow.rollupKey (j : JobRow) : Option RollupKey :=
  match j.status with
  | .confirmed => some ⟨j.request.chainId,j.signer,j.bucket⟩
  | .failed => some ⟨j.request.chainId,j.signer,.failed⟩
  | _ => none

/-- A change of a live job that announces nothing. -/
structure JobRow.Quiet (j j' : JobRow) : Prop where
  id : j'.id = j.id
  request : j'.request = j.request
  seq : j'.webhookSeq = j.webhookSeq
  before : j.status.isTerminal = false
  after : j'.status.isTerminal = false
  included : j'.status = .included → j.status = .included

/-- A change of a live job that announces `event`. -/
structure JobRow.Emits (event : WebhookEvent) (j j' : JobRow) : Prop where
  id : j'.id = j.id
  request : j'.request = j.request
  seq : j'.webhookSeq = j.webhookSeq + 1
  before : j.status.isTerminal = false
  after : match event with
    | .included => j'.status = .included
    | .confirmed => j.status = .included ∧ j'.status = .confirmed
    | .failed => j'.status = .failed

/-- One transaction changes at most one job, and tells the outbox and the rollup of it. -/
inductive JobsEffect (s s' : Store) : Prop
  | none (jobs : s'.jobs.rows = s.jobs.rows)
      (deliveries : s'.webhookDeliveries = s.webhookDeliveries)
      (rollup : s'.statsRollup = s.statsRollup)
  | insert (id : JobId) (request : JobRequest) (fresh : ∀ j ∈ s.jobs.rows, j.id ≠ id)
      (jobs : s'.jobs.rows = s.jobs.rows ++ [JobRow.new id request])
      (deliveries : s'.webhookDeliveries = s.webhookDeliveries)
      (rollup : s'.statsRollup = s.statsRollup)
  | quiet (j j' : JobRow) (mem : j ∈ s.jobs.rows) (move : j.Quiet j')
      (jobs : s'.jobs.rows = Keyed.put JobRow.id s.jobs.rows j j')
      (deliveries : s'.webhookDeliveries = s.webhookDeliveries)
      (rollup : s'.statsRollup = s.statsRollup)
  | emits (event : WebhookEvent) (j j' : JobRow) (mem : j ∈ s.jobs.rows)
      (move : j.Emits event j')
      (jobs : s'.jobs.rows = Keyed.put JobRow.id s.jobs.rows j j')
      (deliveries : s'.webhookDeliveries =
        enqueue s.webhookDeliveries j' event j'.webhookSeq false)
      (rollup : s'.statsRollup = j'.rollupKey.elim s.statsRollup (bumpRollup s.statsRollup))

end GumEngine
