import GumEngine.Laws.Outbox

/-!
# Dispatching webhooks

`claim_due_deliveries`, `mark_delivered`, `mark_delivery_failed` and `defer_delivery` of
`store/outbox.rs`, as the dispatchers of `webhook.rs` issue them. A claimed row is leased,
not locked, so the result of an earlier claim may be recorded at any time. A claim selects
its rows in the snapshot its statement began with and locks each of them in its current
version, which has to be pending and due still; rows that others have locked are skipped.
-/

namespace GumEngine
open Relational Transition

/-- A row of `webhook_deliveries` with the columns of its delivery. -/
structure OutboxRow where
  row : DeliveryRow
  attempts : Nat
  nextAttemptAt : Int
  lastStatusCode : Option Int
  lastError : Option String
  deliveredAt : Option Int
deriving DecidableEq, Repr

namespace OutboxRow

def isPending (r : OutboxRow) : Bool := r.row.status = .pending

/-- `d.status = 'pending' AND d.next_attempt_at <= now()` -/
def isDue (now : Int) (r : OutboxRow) : Bool := r.isPending && r.nextAttemptAt ≤ now

/-- `e.job_id = d.job_id AND e.sequence < d.sequence AND e.status = 'pending'` -/
def holdsBack (d e : OutboxRow) : Bool :=
  e.row.jobId = d.row.jobId && e.row.sequence < d.row.sequence && e.isPending

/-- The row is due and no earlier event of its job is pending. -/
def isClaimable (rows : List OutboxRow) (now : Int) (d : OutboxRow) : Bool :=
  d.isDue now && !rows.any d.holdsBack

end OutboxRow

/-- The ids a claim returns. -/
def claimDueDeliveries (snapshot rows : List OutboxRow) (now : Int) (locked : List Uuid)
    (limit : Nat) : List Uuid :=
  let due := snapshot.filter (OutboxRow.isClaimable snapshot now)
  let sorted := due.mergeSort fun a b => a.nextAttemptAt ≤ b.nextAttemptAt
  let free := sorted.filter fun d =>
    d.row.id ∉ locked && rows.any fun r => r.row.id = d.row.id && r.isDue now
  (free.take limit).map (·.row.id)

/-- `UPDATE .. WHERE id = $1` -/
def updateDelivery (rows : List OutboxRow) (p : Uuid → Bool) (f : OutboxRow → OutboxRow) :
    List OutboxRow :=
  rows.map (rewrite (fun r => p r.row.id) f)

def lease (now secs : Int) (ids : List Uuid) (rows : List OutboxRow) : List OutboxRow :=
  updateDelivery rows (· ∈ ids) fun r => { r with nextAttemptAt := now+secs }

def markDelivered (now : Int) (id : Uuid) (statusCode : Int) (rows : List OutboxRow) :
    List OutboxRow :=
  updateDelivery rows (· = id) fun r => { r with
    row.status := .delivered
    attempts := r.attempts+1
    lastStatusCode := some statusCode
    lastError := none
    deliveredAt := some now }

/-- Without a retry the delivery is given up. -/
def markDeliveryFailed (now : Int) (id : Uuid) (statusCode : Option Int) (error : String)
    (retryIn : Option Int) (rows : List OutboxRow) : List OutboxRow :=
  match retryIn with
  | some secs => updateDelivery rows (· = id) fun r => { r with
      attempts := r.attempts+1
      lastStatusCode := statusCode
      lastError := some error
      nextAttemptAt := now+secs }
  | none => updateDelivery rows (· = id) fun r => { r with
      row.status := .dead
      attempts := r.attempts+1
      lastStatusCode := statusCode
      lastError := some error }

/-- Pushes a delivery out without counting an attempt. -/
def deferDelivery (now : Int) (id : Uuid) (secs : Int) (rows : List OutboxRow) :
    List OutboxRow :=
  rows.map (rewrite (fun r => r.row.id = id && r.isPending) fun r =>
    { r with nextAttemptAt := now+secs })

/-- The table, and the claims whose statement has begun, with their snapshots. -/
structure Dispatch (D : Type) where
  rows : List OutboxRow
  claiming : D → Option (Int × List OutboxRow)

inductive DispatchEvent (D : Type)
  | enqueue (now : Int) (job : JobRow) (event : WebhookEvent) (reincluded : Bool)
  | begin (d : D) (now : Int)
  | claim (d : D) (locked : List Uuid) (limit : Nat) (leaseSecs : Int)
  | delivered (now : Int) (id : Uuid) (statusCode : Int)
  | failed (now : Int) (id : Uuid) (statusCode : Option Int) (error : String)
      (retryIn : Option Int)
  | defer (now : Int) (id : Uuid) (secs : Int)

namespace Dispatch

variable {D : Type} [DecidableEq D]

def deliveries (rows : List OutboxRow) : List DeliveryRow := rows.map (·.row)

def empty : Dispatch D := ⟨[],fun _ => none⟩

/-- What the claim of `d` returns when it commits now. -/
def claimed (s : Dispatch D) (d : D) (locked : List Uuid) (limit : Nat) : List Uuid :=
  match s.claiming d with
  | some (now,snapshot) => claimDueDeliveries snapshot s.rows now locked limit
  | none => []

def claim (s : Dispatch D) (d : D) (locked : List Uuid) (limit : Nat) (secs : Int) :
    Dispatch D :=
  match s.claiming d with
  | some (now,_) =>
    { rows := lease now secs (s.claimed d locked limit) s.rows
      claiming := Function.update s.claiming d none }
  | none => s

def step (s : Dispatch D) : DispatchEvent D → Dispatch D
  | .enqueue now job event re => { s with
      rows := s.rows ++ [⟨delivery (deliveries s.rows) job event job.webhookSeq re,0,now,none,none,none⟩] }
  | .begin d now => { s with claiming := Function.update s.claiming d (some (now,s.rows)) }
  | .claim d locked limit secs => s.claim d locked limit secs
  | .delivered now id code => { s with rows := markDelivered now id code s.rows }
  | .failed now id code error retryIn =>
    { s with rows := markDeliveryFailed now id code error retryIn s.rows }
  | .defer now id secs => { s with rows := deferDelivery now id secs s.rows }

/-- Events are enqueued with consecutive sequences; nothing else is asked of a step. -/
def Allowed (s : Dispatch D) : DispatchEvent D → Prop
  | .enqueue _ job _ _ => job.webhookSeq = (eventsOf (deliveries s.rows) job.id).length+1
  | _ => True

def machine : Machine (Dispatch D) (DispatchEvent D) where
  allowed := Allowed
  step := step

end Dispatch

/-! ## What later tables keep of earlier ones -/

/-- The same event, and a delivery that has ended stays ended. -/
structure OutboxRow.Later (r r' : OutboxRow) : Prop where
  id : r'.row.id = r.row.id
  job : r'.row.jobId = r.row.jobId
  sequence : r'.row.sequence = r.row.sequence
  ended : r.isPending = false → r'.isPending = false

theorem OutboxRow.Later.refl (r : OutboxRow) : r.Later r := ⟨rfl,rfl,rfl,fun h => h⟩

theorem OutboxRow.Later.trans {r r' r'' : OutboxRow} (h : r.Later r') (h' : r'.Later r'') :
    r.Later r'' :=
  ⟨h'.id.trans h.id,h'.job.trans h.job,h'.sequence.trans h.sequence,fun he => h'.ended (h.ended he)⟩

/-- Rows stay, and a new one comes after all events of its job. -/
structure LaterRows (old new : List OutboxRow) : Prop where
  kept : ∀ r ∈ old, ∃ r' ∈ new, r.Later r'
  added : ∀ r' ∈ new, (∃ r ∈ old, r.Later r') ∨
    ∀ r ∈ old, r.row.jobId = r'.row.jobId → r.row.sequence < r'.row.sequence

namespace LaterRows

variable {old mid new : List OutboxRow}

theorem refl (rows : List OutboxRow) : LaterRows rows rows where
  kept r hr := ⟨r,hr,.refl r⟩
  added r hr := Or.inl ⟨r,hr,.refl r⟩

theorem trans (h : LaterRows old mid) (h' : LaterRows mid new) : LaterRows old new where
  kept r hr := by
    obtain ⟨r',hr',hl⟩ := h.kept r hr
    obtain ⟨r'',hr'',hl'⟩ := h'.kept r' hr'
    exact ⟨r'',hr'',hl.trans hl'⟩
  added r'' hr'' := by
    obtain ⟨r',hr',hl'⟩ | hnew := h'.added r'' hr''
    · obtain ⟨r,hr,hl⟩ | hnew := h.added r' hr'
      · exact Or.inl ⟨r,hr,hl.trans hl'⟩
      · refine Or.inr fun r hr hj => ?_
        rw [hl'.sequence]
        exact hnew r hr (hj.trans hl'.job)
    · refine Or.inr fun r hr hj => ?_
      obtain ⟨r',hr',hl⟩ := h.kept r hr
      rw [← hl.sequence]
      exact hnew r' hr' (hl.job.trans hj)

/-- An update that keeps the event of each row. -/
theorem map {f : OutboxRow → OutboxRow} (rows : List OutboxRow) (hf : ∀ r : OutboxRow, r.Later (f r)) :
    LaterRows rows (rows.map f) where
  kept r hr := ⟨f r,List.mem_map_of_mem hr,hf r⟩
  added r' hr' := by
    obtain ⟨r,hr,rfl⟩ := List.mem_map.mp hr'
    exact Or.inl ⟨r,hr,hf r⟩

theorem append {rows : List OutboxRow} {new : OutboxRow}
    (h : ∀ r ∈ rows, r.row.jobId = new.row.jobId → r.row.sequence < new.row.sequence) :
    LaterRows rows (rows ++ [new]) where
  kept r hr := ⟨r,List.mem_append_left _ hr,.refl r⟩
  added r' hr' := by
    rcases List.mem_append.mp hr' with hr' | hr'
    · exact Or.inl ⟨r',hr',.refl r'⟩
    · rw [List.mem_singleton.mp hr']
      exact Or.inr h

end LaterRows

/-- An update of the table: every row becomes a later version of itself. -/
def Updates (rows rows' : List OutboxRow) : Prop :=
  ∃ f : OutboxRow → OutboxRow, (∀ r : OutboxRow, r.Later (f r)) ∧ rows' = rows.map f

/-- The rows a statement selects get new values. -/
theorem Updates.rewrite {f : OutboxRow → OutboxRow} (rows : List OutboxRow) (p : OutboxRow → Bool)
    (hf : ∀ r : OutboxRow, r.Later (f r)) : Updates rows (rows.map (rewrite p f)) := by
  refine ⟨Relational.rewrite p f,fun r => ?_,rfl⟩
  unfold Relational.rewrite
  split
  · exact hf r
  · exact .refl r

section Updates

variable (rows : List OutboxRow) (now : Int) (id : Uuid)

theorem lease_updates (secs : Int) (ids : List Uuid) : Updates rows (lease now secs ids rows) :=
  Updates.rewrite rows _ fun _ => ⟨rfl,rfl,rfl,fun h => h⟩

theorem markDelivered_updates (code : Int) : Updates rows (markDelivered now id code rows) :=
  Updates.rewrite rows _ fun _ => ⟨rfl,rfl,rfl,fun _ => rfl⟩

theorem markDeliveryFailed_updates (code : Option Int) (error : String) (retryIn : Option Int) :
    Updates rows (markDeliveryFailed now id code error retryIn rows) := by
  cases retryIn with
  | some secs => exact Updates.rewrite rows _ fun _ => ⟨rfl,rfl,rfl,fun h => h⟩
  | none => exact Updates.rewrite rows _ fun _ => ⟨rfl,rfl,rfl,fun _ => rfl⟩

theorem deferDelivery_updates (secs : Int) : Updates rows (deferDelivery now id secs rows) :=
  Updates.rewrite rows _ fun _ => ⟨rfl,rfl,rfl,fun h => h⟩

end Updates

namespace Dispatch

/-- Ids are distinct, and a job with `n` events has none beyond sequence `n`. -/
structure Numbered (rows : List OutboxRow) : Prop where
  ids : rows.map (·.row.id) = List.range rows.length
  sequences : ∀ r ∈ rows, r.row.sequence ≤ rows.countP fun e => e.row.jobId = r.row.jobId

theorem eventsOf_length (rows : List OutboxRow) (id : JobId) :
    (eventsOf (deliveries rows) id).length = rows.countP fun e => e.row.jobId = id := by
  rw [eventsOf,deliveries,← List.countP_eq_length_filter,List.countP_map]
  rfl

theorem Numbered.updates {rows rows' : List OutboxRow} (h : Numbered rows)
    (hu : Updates rows rows') : Numbered rows' := by
  obtain ⟨f,hf,rfl⟩ := hu
  have hcount (id : JobId) : (rows.map f).countP (fun e => e.row.jobId = id) =
      rows.countP fun e => e.row.jobId = id := by
    rw [List.countP_map]
    exact List.countP_congr fun r _ => by simp [(hf r).job]
  refine ⟨?_,fun r' hr' => ?_⟩
  · rw [List.map_map,List.length_map,← h.ids]
    exact List.map_congr_left fun r _ => (hf r).id
  · obtain ⟨r,hr,rfl⟩ := List.mem_map.mp hr'
    rw [hcount,(hf r).job,(hf r).sequence]
    exact h.sequences r hr

/-- The new row has the next id and the next sequence of its job. -/
theorem Numbered.append {rows : List OutboxRow} {new : OutboxRow} (h : Numbered rows)
    (hid : new.row.id = rows.length)
    (hseq : new.row.sequence = (rows.countP fun e => e.row.jobId = new.row.jobId)+1) :
    Numbered (rows ++ [new]) where
  ids := by
    rw [List.map_append,h.ids,List.length_append,List.length_singleton,List.range_succ,
      List.map_singleton,hid]
  sequences r hr := by
    rw [List.countP_append]
    rcases List.mem_append.mp hr with hr | hr
    · exact le_add_right (h.sequences r hr)
    · rw [List.mem_singleton.mp hr,hseq]
      simp

/-- Two rows with one id are the same row. -/
theorem Numbered.eq_of_id {rows : List OutboxRow} (h : Numbered rows) {r r' : OutboxRow}
    (hr : r ∈ rows) (hr' : r' ∈ rows) (hid : r.row.id = r'.row.id) : r = r' := by
  have hnodup : (rows.map (·.row.id)).Nodup := h.ids ▸ List.nodup_range
  exact List.inj_on_of_nodup_map hnodup hr hr' hid

variable {D : Type} [DecidableEq D] {s t : Dispatch D} {e : DispatchEvent D}

/-- What a step does to the table. -/
theorem step_rows (h : Numbered s.rows) (ha : Allowed s e) :
    LaterRows s.rows (s.step e).rows ∧ Numbered (s.step e).rows := by
  have hupdate {rows : List OutboxRow} (hu : Updates s.rows rows) :
      LaterRows s.rows rows ∧ Numbered rows := by
    refine ⟨?_,h.updates hu⟩
    obtain ⟨f,hf,rfl⟩ := hu
    exact LaterRows.map s.rows hf
  cases e with
  | enqueue now job event re =>
    have hseq : job.webhookSeq = (s.rows.countP fun e => e.row.jobId = job.id)+1 := by
      rw [← eventsOf_length]
      exact ha
    refine ⟨LaterRows.append fun r hr hj => ?_,h.append ?_ hseq⟩
    · show r.row.sequence < job.webhookSeq
      have hle := h.sequences r hr
      rw [hj] at hle
      exact hseq ▸ Nat.lt_succ_of_le hle
    · show (deliveries s.rows).length = s.rows.length
      exact List.length_map _
  | begin d now => exact ⟨.refl _,h⟩
  | claim d locked limit secs =>
    show LaterRows s.rows (s.claim d locked limit secs).rows ∧ Numbered (s.claim d locked limit secs).rows
    unfold Dispatch.claim
    split
    · exact hupdate (lease_updates ..)
    · exact ⟨.refl _,h⟩
  | delivered now id code => exact hupdate (markDelivered_updates ..)
  | failed now id code error retryIn => exact hupdate (markDeliveryFailed_updates ..)
  | defer now id secs => exact hupdate (deferDelivery_updates ..)

/-- Every open snapshot is an earlier state of the table. -/
structure Steady (s : Dispatch D) : Prop where
  rows : Numbered s.rows
  snapshots : ∀ d now snapshot, s.claiming d = some (now,snapshot) →
    Numbered snapshot ∧ LaterRows snapshot s.rows

/-- The snapshots after a step are older ones or the table itself. -/
theorem step_claiming {d : D} {now : Int} {snapshot : List OutboxRow}
    (h : (s.step e).claiming d = some (now,snapshot)) :
    s.claiming d = some (now,snapshot) ∨ snapshot = (s.step e).rows := by
  cases e with
  | begin d' now' =>
    replace h : Function.update s.claiming d' (some (now',s.rows)) d = some (now,snapshot) := h
    by_cases hd : d = d'
    · rw [hd,Function.update_self,Option.some.injEq,Prod.mk.injEq] at h
      exact Or.inr h.2.symm
    · rw [Function.update_of_ne hd] at h
      exact Or.inl h
  | claim d' locked limit secs =>
    replace h : (s.claim d' locked limit secs).claiming d = some (now,snapshot) := h
    unfold Dispatch.claim at h
    split at h
    · replace h : Function.update s.claiming d' none d = some (now,snapshot) := h
      by_cases hd : d = d'
      · rw [hd,Function.update_self] at h
        cases h
      · rw [Function.update_of_ne hd] at h
        exact Or.inl h
    · exact Or.inl h
  | _ => exact Or.inl h

theorem Steady.step (h : Steady s) (ha : Allowed s e) : Steady (s.step e) := by
  obtain ⟨hlater,hnum⟩ := step_rows h.rows ha
  refine ⟨hnum,fun d now snapshot hd => ?_⟩
  rcases step_claiming hd with hd | rfl
  · obtain ⟨hn,hl⟩ := h.snapshots d now snapshot hd
    exact ⟨hn,hl.trans hlater⟩
  · exact ⟨hnum,.refl _⟩

omit [DecidableEq D] in
theorem Steady.empty : Steady (Dispatch.empty : Dispatch D) :=
  ⟨⟨rfl,fun _ hr => absurd hr List.not_mem_nil⟩,fun _ _ _ h => nomatch h⟩

theorem Steady.reaches (h : machine.Reaches Dispatch.empty s) : Steady s :=
  h.invariant Steady.empty fun _ _ hs ha => hs.step ha

/-- A later state of the machine has a later table. -/
theorem reaches_later (hs : Steady s) (h : machine.Reaches s t) : LaterRows s.rows t.rows :=
  (h.invariant (I := fun t => Steady t ∧ LaterRows s.rows t.rows) ⟨hs,.refl _⟩
    fun _ _ ⟨ht,hl⟩ ha => ⟨ht.step ha,hl.trans (step_rows ht.rows ha).1⟩).2

/-- What a claim returns, its LIMIT apart. -/
theorem mem_claim {snapshot rows : List OutboxRow} {now : Int} {locked : List Uuid} {limit : Nat}
    {id : Uuid} (h : id ∈ claimDueDeliveries snapshot rows now locked limit) :
    (∃ d ∈ snapshot, d.row.id = id ∧ d.isClaimable snapshot now = true) ∧ id ∉ locked ∧
      ∃ r ∈ rows, r.row.id = id ∧ r.isDue now = true := by
  obtain ⟨d,hd,rfl⟩ := List.mem_map.mp h
  obtain ⟨hsorted,hfree⟩ := List.mem_filter.mp (List.mem_of_mem_take hd)
  obtain ⟨hsnap,hclaim⟩ := List.mem_filter.mp (List.mem_mergeSort.mp hsorted)
  simp only [Bool.and_eq_true,decide_eq_true_eq,List.any_eq_true] at hfree
  exact ⟨⟨d,hsnap,rfl,hclaim⟩,hfree⟩

theorem mem_claim_iff {snapshot rows : List OutboxRow} {now : Int} {locked : List Uuid}
    {limit : Nat} (hlimit : snapshot.length ≤ limit) {id : Uuid} :
    id ∈ claimDueDeliveries snapshot rows now locked limit ↔
      (∃ d ∈ snapshot, d.row.id = id ∧ d.isClaimable snapshot now = true) ∧ id ∉ locked ∧
        ∃ r ∈ rows, r.row.id = id ∧ r.isDue now = true := by
  refine ⟨mem_claim,?_⟩
  rintro ⟨⟨d,hd,rfl,hclaim⟩,hlock,hrow⟩
  refine List.mem_map.mpr ⟨d,?_,rfl⟩
  rw [List.take_of_length_le]
  · refine List.mem_filter.mpr ⟨List.mem_mergeSort.mpr (List.mem_filter.mpr ⟨hd,hclaim⟩),?_⟩
    simpa only [Bool.and_eq_true,decide_eq_true_eq,List.any_eq_true] using ⟨hlock,hrow⟩
  · calc _ ≤ _ := List.length_filter_le _ _
      _ = _ := List.length_mergeSort _
      _ ≤ snapshot.length := List.length_filter_le _ _
      _ ≤ limit := hlimit

theorem isPending_eq_false {r : OutboxRow} :
    r.isPending = false ↔ r.row.status = .delivered ∨ r.row.status = .dead := by
  rw [OutboxRow.isPending,decide_eq_false_iff_not]
  cases r.row.status <;> simp

omit [DecidableEq D] in
/-- Nothing pending comes before a claimed event of its job. -/
theorem Steady.claimed_next (h : Steady s) {d : D} {locked : List Uuid} {limit : Nat} {id : Uuid}
    (hid : id ∈ s.claimed d locked limit) :
    ∃ r ∈ s.rows, r.row.id = id ∧ r.isPending = true ∧ ∀ e ∈ s.rows,
      e.row.jobId = r.row.jobId → e.row.sequence < r.row.sequence → e.isPending = false := by
  unfold Dispatch.claimed at hid
  split at hid
  next now snapshot hd =>
    obtain ⟨⟨x,hx,hxid,hclaim⟩,-,r,hr,hrid,hdue⟩ := mem_claim hid
    obtain ⟨-,hl⟩ := h.snapshots d now snapshot hd
    -- The row as it is now is the one the snapshot has.
    obtain ⟨x',hx',hxx⟩ := hl.kept x hx
    obtain rfl : x' = r := h.rows.eq_of_id hx' hr (by rw [hxx.id,hxid,hrid])
    refine ⟨x',hr,hrid,(Bool.and_eq_true_iff.mp hdue).1,fun e he hj hseq => ?_⟩
    obtain ⟨y,hy,hye⟩ | hnew := hl.added e he
    · -- The snapshot shows an earlier event: it has ended there, and stays so.
      apply hye.ended
      rw [OutboxRow.isClaimable,Bool.and_eq_true,Bool.not_eq_true',List.any_eq_false] at hclaim
      have hback := hclaim.2 y hy
      rw [OutboxRow.holdsBack,← hye.job,← hye.sequence,hj,hxx.job] at hback
      have hlt : e.row.sequence < x.row.sequence := hxx.sequence ▸ hseq
      simpa [hlt] using hback
    · -- A row the snapshot lacks comes after the claimed one.
      have := hnew x hx (by rw [hj,hxx.job])
      rw [hxx.sequence] at hseq
      omega
  next => exact absurd hid List.not_mem_nil

def ofJob (rows : List OutboxRow) (job : JobId) : List OutboxRow :=
  rows.filter fun r => r.row.jobId = job

theorem mem_ofJob {rows : List OutboxRow} {job : JobId} {r : OutboxRow} :
    r ∈ ofJob rows job ↔ r ∈ rows ∧ r.row.jobId = job := by
  simp [ofJob]

/-- Only events of its own job hold a delivery back. -/
theorem isClaimable_ofJob {rows : List OutboxRow} {now : Int} {r : OutboxRow} :
    r.isClaimable rows now = r.isClaimable (ofJob rows r.row.jobId) now := by
  unfold OutboxRow.isClaimable
  congr 2
  rw [Bool.eq_iff_iff,List.any_eq_true,List.any_eq_true]
  constructor
  · rintro ⟨e,he,hb⟩
    have hj : e.row.jobId = r.row.jobId := by
      simp only [OutboxRow.holdsBack,Bool.and_eq_true,decide_eq_true_eq] at hb
      exact hb.1.1
    exact ⟨e,mem_ofJob.mpr ⟨he,hj⟩,hb⟩
  · rintro ⟨e,he,hb⟩
    exact ⟨e,(mem_ofJob.mp he).1,hb⟩

omit [DecidableEq D] in
/-- Whether a claim takes a row is a matter of the rows of its job. -/
theorem Steady.claimed_iff (h : Steady s) {d : D} {now : Int} {snapshot : List OutboxRow}
    (hd : s.claiming d = some (now,snapshot)) {locked : List Uuid} {limit : Nat}
    (hlimit : snapshot.length ≤ limit) {job : JobId} {r : OutboxRow}
    (hmem : r ∈ ofJob snapshot job) :
    r.row.id ∈ s.claimed d locked limit ↔
      r.isClaimable (ofJob snapshot job) now = true ∧ r.row.id ∉ locked ∧
        ∃ c ∈ ofJob s.rows job, c.row.id = r.row.id ∧ c.isDue now = true := by
  obtain ⟨hn,hl⟩ := h.snapshots d now snapshot hd
  obtain ⟨hr,rfl⟩ := mem_ofJob.mp hmem
  have heq : s.claimed d locked limit = claimDueDeliveries snapshot s.rows now locked limit := by
    simp only [claimed,hd]
  rw [heq,mem_claim_iff hlimit,← isClaimable_ofJob]
  refine and_congr ?_ (and_congr_right fun _ => ?_)
  · constructor
    · rintro ⟨x,hx,hid,hc⟩
      exact hn.eq_of_id hx hr hid ▸ hc
    · exact fun hc => ⟨r,hr,rfl,hc⟩
  · constructor
    · rintro ⟨c,hc,hid,hdue⟩
      obtain ⟨r',hr',hrr⟩ := hl.kept r hr
      obtain rfl : c = r' := h.rows.eq_of_id hc hr' (hid.trans hrr.id.symm)
      exact ⟨c,mem_ofJob.mpr ⟨hc,hrr.job⟩,hid,hdue⟩
    · rintro ⟨c,hc,hcond⟩
      exact ⟨c,(mem_ofJob.mp hc).1,hcond⟩

/-- Over every run of any number of dispatchers: a claimed delivery is pending and every
earlier event of its job has ended; a delivery that has ended is not claimed again; and two
claims that see the same rows of a job, at the same time and with room for all rows, take the
same of them. -/
theorem claims_in_order {s : Dispatch D} (h : machine.Reaches empty s) :
    (∀ d locked limit, ∀ id ∈ s.claimed d locked limit, ∃ r ∈ s.rows, r.row.id = id ∧
      ∀ e ∈ s.rows, e.row.jobId = r.row.jobId → e.row.sequence < r.row.sequence →
        e.row.status = .delivered ∨ e.row.status = .dead) ∧
    (∀ t, machine.Reaches s t → ∀ r ∈ s.rows, r.row.status = .delivered ∨ r.row.status = .dead →
      ∀ d locked limit, r.row.id ∉ t.claimed d locked limit) ∧
    (∀ t : Dispatch D, machine.Reaches empty t → ∀ d d' now snapshot snapshot' job,
      s.claiming d = some (now,snapshot) → t.claiming d' = some (now,snapshot') →
      ofJob snapshot job = ofJob snapshot' job → ofJob s.rows job = ofJob t.rows job →
      ∀ r ∈ ofJob snapshot job, ∀ locked locked' limit limit',
        (r.row.id ∈ locked ↔ r.row.id ∈ locked') → snapshot.length ≤ limit →
        snapshot'.length ≤ limit' →
        (r.row.id ∈ s.claimed d locked limit ↔ r.row.id ∈ t.claimed d' locked' limit')) := by
  have hs := Steady.reaches h
  refine ⟨?_,?_,?_⟩
  · intro d locked limit id hid
    obtain ⟨r,hr,hrid,-,hback⟩ := hs.claimed_next hid
    exact ⟨r,hr,hrid,fun e he hj hlt => isPending_eq_false.mp (hback e he hj hlt)⟩
  · intro t ht r hr hend d locked limit hid
    have hst : Steady t := Steady.reaches (h.trans ht)
    obtain ⟨r',hr',hlater⟩ := (reaches_later hs ht).kept r hr
    obtain ⟨c,hc,hcid,hpending,-⟩ := hst.claimed_next hid
    obtain rfl : c = r' := hst.rows.eq_of_id hc hr' (hcid.trans hlater.id.symm)
    rw [hlater.ended (isPending_eq_false.mpr hend)] at hpending
    cases hpending
  · intro t ht d d' now snapshot snapshot' job hd hd' hsnap hrows r hr locked locked' limit limit'
      hlocked hlimit hlimit'
    rw [hs.claimed_iff hd hlimit hr,(Steady.reaches ht).claimed_iff hd' hlimit' (hsnap ▸ hr),
      hsnap,hrows,hlocked]

instance (s : Dispatch D) : DecidablePred (Allowed s)
  | .enqueue _ job _ _ => inferInstanceAs
      (Decidable (job.webhookSeq = (eventsOf (deliveries s.rows) job.id).length+1))
  | .begin _ _ => .isTrue trivial
  | .claim _ _ _ _ => .isTrue trivial
  | .delivered _ _ _ => .isTrue trivial
  | .failed _ _ _ _ _ => .isTrue trivial
  | .defer _ _ _ => .isTrue trivial

instance (s : Dispatch D) (e : DispatchEvent D) : Decidable (machine.allowed s e) :=
  inferInstanceAs (Decidable (Allowed s e))

/-- Two events of one job. The lease of the first lapses, a second dispatcher claims it, and
both results come in, the late one as a failure without retry. -/
def lapsed : List (DispatchEvent Bool) :=
  let job := JobRow.new 7 Sample.request
  [.enqueue 0 { job with webhookSeq := 1 } .included false,
    .enqueue 0 { job with webhookSeq := 2 } .confirmed false,.begin true 0,.claim true [] 8 30,
    .begin false 40,.claim false [] 8 30,.delivered 41 0 200,.failed 42 0 none "timeout" none,
    .begin true 43]

theorem claims_in_order_lapsed :
    (lapsed.foldl step (empty : Dispatch Bool)).claimed true [] 8 = [1] ∧
      ∀ id ∈ (lapsed.foldl step (empty : Dispatch Bool)).claimed true [] 8,
        ∃ r ∈ (lapsed.foldl step (empty : Dispatch Bool)).rows, r.row.id = id ∧
          ∀ e ∈ (lapsed.foldl step (empty : Dispatch Bool)).rows, e.row.jobId = r.row.jobId →
            e.row.sequence < r.row.sequence → e.row.status = .delivered ∨ e.row.status = .dead := by
  have hrun : machine.Runs (empty : Dispatch Bool) lapsed := by decide
  exact ⟨by decide +kernel,(claims_in_order hrun.reaches).1 true [] 8⟩

end Dispatch

end GumEngine
