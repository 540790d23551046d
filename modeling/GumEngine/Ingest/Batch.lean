import GumEngine.Store.Jobs

/-!
# Group commit of new jobs

`Store::insert_jobs` and `store/batcher.rs`. A batch is one statement; the outcomes of the
rows it skipped are read off the table afterwards. The statement inserts in array order
and skips a row whose idempotency key is taken, be it by an earlier row of its own.
-/

namespace GumEngine
open Relational

/-- A validated request waiting to be written. -/
structure NewJob where
  id : JobId
  request : JobRequest
  idempotencyKey : Option String
  requestHash : String

inductive InsertOutcome
  | created
  | replayed (id : JobId)
  | conflict
deriving DecidableEq

/-- A row of `jobs` with the columns that only ingest reads. -/
structure IngestRow where
  seq : Nat
  job : JobRow
  idempotencyKey : Option String
  requestHash : String
deriving DecidableEq

def IngestRow.ofNew (seq : Nat) (j : NewJob) : IngestRow :=
  ⟨seq,JobRow.new j.id j.request,j.idempotencyKey,j.requestHash⟩

/-- Primary key and `idempotency_key TEXT UNIQUE`; keys that are null do not collide. -/
def IngestRow.clash (a b : IngestRow) : Prop :=
  a.job.id = b.job.id ∨ a.idempotencyKey.isSome ∧ a.idempotencyKey = b.idempotencyKey

instance : DecidableRel IngestRow.clash := fun a b =>
  inferInstanceAs (Decidable
    (a.job.id = b.job.id ∨ a.idempotencyKey.isSome ∧ a.idempotencyKey = b.idempotencyKey))

theorem IngestRow.clash_symm {a b : IngestRow} (h : a.clash b) : b.clash a := by
  obtain h | ⟨hs,h⟩ := h
  · exact .inl h.symm
  · exact .inr ⟨h ▸ hs,h.symm⟩

/-- The table and the sequence behind `seq`, which skipped rows use up too. -/
structure Jobs where
  table : Table IngestRow.clash
  nextSeq : Nat

/-- `SELECT id, request_hash FROM jobs WHERE idempotency_key = $1` -/
def Jobs.ownerOf (t : Jobs) (key : String) : Option IngestRow :=
  t.table.rows.find? fun r => r.idempotencyKey = some key

/-- The row that keeps `j` out under `ON CONFLICT (idempotency_key) DO NOTHING`. -/
def Jobs.holder (t : Jobs) (j : NewJob) : Option IngestRow := j.idempotencyKey.bind t.ownerOf

/-- One row of the statement; `true` when it was inserted. -/
def Jobs.insertRow (t : Jobs) (j : NewJob) : Except StoreError (Bool × Jobs) :=
  if (t.holder j).isSome then .ok (false,{ t with nextSeq := t.nextSeq + 1 }) else
  match t.table.insert (.ofNew t.nextSeq j) with
  | none => .error .uniqueViolation
  | some table => .ok (true,⟨table,t.nextSeq + 1⟩)

/-- The statement: the ids it returns, and the table; an error rolls all of it back. -/
def Jobs.insertAll : Jobs → List NewJob → Except StoreError (List JobId × Jobs)
  | t,[] => .ok ([],t)
  | t,j :: js =>
    match t.insertRow j with
    | .error e => .error e
    | .ok (new,t) =>
      match t.insertAll js with
      | .error e => .error e
      | .ok (ids,t) => .ok (if new then j.id :: ids else ids,t)

/-- What the caller of `j` is told, once the statement is through. -/
def Jobs.outcome (t : Jobs) (inserted : List JobId) (j : NewJob) :
    Except StoreError InsertOutcome :=
  if j.id ∈ inserted then .ok .created else
  match t.ownerOf (j.idempotencyKey.getD "") with
  | some row => .ok (if row.requestHash = j.requestHash then .replayed row.job.id else .conflict)
  | none => .error (.corrupt
      s!"job {j.id} was neither inserted nor found by its idempotency key")

def insertJobs (t : Jobs) (jobs : List NewJob) : Except StoreError (List InsertOutcome) × Jobs :=
  match t.insertAll jobs with
  | .error e => (.error e,t)
  | .ok (inserted,t) => (jobs.mapM (t.outcome inserted),t)

section Batcher

variable {α : Type}

/-- The fallback of the batcher: every row on its own. `α` are the callers; an error
reaches its caller as text. -/
def ackRows : Jobs → List (NewJob × α) → List (α × Except StoreError InsertOutcome) × Jobs
  | t,[] => ([],t)
  | t,(j,caller) :: rest =>
    let (result,t) := insertJobs t [j]
    let (acks,t) := ackRows t rest
    ((caller,result.map fun o => o.headD .created) :: acks,t)

/-- One turn of the batcher: what its callers are told, in the order of the batch. -/
def ackBatch (t : Jobs) (batch : List (NewJob × α)) :
    List (α × Except StoreError InsertOutcome) × Jobs :=
  match insertJobs t (batch.map (·.1)) with
  | (.ok outcomes,t) => ((batch.map (·.2)).zip (outcomes.map .ok),t)
  | (.error _,t) => ackRows t batch

/-- The batcher, on the batches it happens to form. -/
def batcher : Jobs → List (List (NewJob × α)) →
    List (α × Except StoreError InsertOutcome) × Jobs
  | t,[] => ([],t)
  | t,batch :: rest =>
    let (acks,t) := ackBatch t batch
    let (more,t) := batcher t rest
    (acks ++ more,t)

end Batcher

/-! ## One job after the other -/

/-- What ingest is for: the first job of a key is created, a later one is answered with
the owner of the key. -/
def Jobs.answer (t : Jobs) (j : NewJob) : InsertOutcome :=
  match t.holder j with
  | none => .created
  | some row => if row.requestHash = j.requestHash then .replayed row.job.id else .conflict

/-- The table with `j` in it, unless its key is taken; an id that exists leaves it alone. -/
def Jobs.add (t : Jobs) (j : NewJob) : Jobs :=
  match t.holder j with
  | some _ => { t with nextSeq := t.nextSeq + 1 }
  | none => ⟨(t.table.insert (.ofNew t.nextSeq j)).getD t.table,t.nextSeq + 1⟩

def Jobs.addAll (t : Jobs) (js : List NewJob) : Jobs := js.foldl Jobs.add t

def Jobs.answers : Jobs → List NewJob → List InsertOutcome
  | _,[] => []
  | t,j :: js => t.answer j :: (t.add j).answers js

/-- Ids that are new to the table and distinct. -/
structure Jobs.Fresh (t : Jobs) (js : List NewJob) : Prop where
  new : ∀ j ∈ js, ∀ r ∈ t.table.rows, r.job.id ≠ j.id
  nodup : (js.map NewJob.id).Nodup

section Ingest

variable {t : Jobs} {j : NewJob} {js ks : List NewJob}

/-- A key without owner meets no row, so a fresh row goes in. -/
theorem Jobs.insert_some (hh : t.holder j = none)
    (hf : ∀ r ∈ t.table.rows, r.job.id ≠ j.id) :
    ∃ table, t.table.insert (.ofNew t.nextSeq j) = some table ∧
      table.rows = t.table.rows ++ [.ofNew t.nextSeq j] := by
  have hno : ∀ r ∈ t.table.rows, ¬ r.clash (.ofNew t.nextSeq j) := by
    rintro r hr (hid | ⟨hs,hk⟩)
    · exact hf r hr hid
    · obtain ⟨k,hk'⟩ := Option.isSome_iff_exists.mp hs
      have hj : j.idempotencyKey = some k := hk.symm.trans hk'
      rw [Jobs.holder,hj,Option.bind_some,Jobs.ownerOf,List.find?_eq_none] at hh
      exact hh r hr (by simpa using hk')
  cases hi : t.table.insert (.ofNew t.nextSeq j) with
  | none => simp [Table.insert,dif_pos hno] at hi
  | some table => exact ⟨table,rfl,(Table.insert_eq_some hi).1⟩

theorem Jobs.insertRow_eq (hf : ∀ r ∈ t.table.rows, r.job.id ≠ j.id) :
    t.insertRow j = .ok (decide (t.answer j = .created),t.add j) := by
  unfold Jobs.insertRow Jobs.answer Jobs.add
  cases hh : t.holder j with
  | some row =>
    by_cases hhash : row.requestHash = j.requestHash <;> simp [hhash]
  | none =>
    obtain ⟨table,hi,-⟩ := Jobs.insert_some hh hf
    simp [hi]

/-- Rows are only appended. -/
theorem Jobs.add_rows (hf : ∀ r ∈ t.table.rows, r.job.id ≠ j.id) :
    (t.add j).table.rows = t.table.rows ∨
      (t.add j).table.rows = t.table.rows ++ [.ofNew t.nextSeq j] := by
  unfold Jobs.add
  cases hh : t.holder j with
  | some row => exact .inl rfl
  | none =>
    obtain ⟨table,hi,hrows⟩ := Jobs.insert_some hh hf
    right
    simpa [hi] using hrows

theorem Jobs.Fresh.tail (h : t.Fresh (j :: js)) : (t.add j).Fresh js := by
  obtain ⟨hj,hn⟩ := List.nodup_cons.mp h.nodup
  refine ⟨?_,hn⟩
  intro k hk r hr
  rcases Jobs.add_rows (h.new j List.mem_cons_self) with hrows | hrows <;> rw [hrows] at hr
  · exact h.new k (List.mem_cons_of_mem _ hk) r hr
  · rcases List.mem_append.mp hr with hr | hr
    · exact h.new k (List.mem_cons_of_mem _ hk) r hr
    · rw [List.mem_singleton.mp hr]
      intro he
      exact hj (List.mem_map.mpr ⟨k,hk,he.symm⟩)

theorem Jobs.Fresh.left (h : t.Fresh (js ++ ks)) : t.Fresh js := by
  refine ⟨fun j hj => h.new j (List.mem_append_left _ hj),?_⟩
  have := h.nodup
  rw [List.map_append] at this
  exact (List.nodup_append.mp this).1

theorem Jobs.Fresh.right (h : t.Fresh (js ++ ks)) : (t.addAll js).Fresh ks := by
  induction js generalizing t with
  | nil => exact h
  | cons j js ih => exact ih h.tail

/-- A key keeps its first owner. -/
theorem Jobs.ownerOf_addAll {key : String} {row : IngestRow} (hf : t.Fresh js)
    (h : t.ownerOf key = some row) : (t.addAll js).ownerOf key = some row := by
  induction js generalizing t with
  | nil => exact h
  | cons j js ih =>
    refine ih hf.tail ?_
    unfold Jobs.ownerOf at h ⊢
    rcases Jobs.add_rows (hf.new j List.mem_cons_self) with hrows | hrows <;> rw [hrows]
    · exact h
    · rw [List.find?_append,h]
      rfl

/-- The jobs that were created, in order. -/
def Jobs.createdIds (t : Jobs) : List NewJob → List JobId
  | [] => []
  | j :: js =>
    if t.answer j = .created then j.id :: (t.add j).createdIds js else (t.add j).createdIds js

theorem Jobs.createdIds_sub {i : JobId} (h : i ∈ t.createdIds js) : i ∈ js.map NewJob.id := by
  induction js generalizing t with
  | nil => cases h
  | cons j js ih =>
    unfold Jobs.createdIds at h
    split at h
    · rcases List.mem_cons.mp h with rfl | h
      · exact List.mem_cons_self
      · exact List.mem_cons_of_mem _ (ih h)
    · exact List.mem_cons_of_mem _ (ih h)

theorem Jobs.insertAll_eq (hf : t.Fresh js) :
    t.insertAll js = .ok (t.createdIds js,t.addAll js) := by
  induction js generalizing t with
  | nil => rfl
  | cons j js ih =>
    simp only [Jobs.insertAll,Jobs.insertRow_eq (hf.new j List.mem_cons_self),ih hf.tail,
      Jobs.createdIds,decide_eq_true_eq]
    rfl

/-- Read after the statement, the outcome of `j` is the one it had when its turn came:
a created job is among the ids, and any other finds the same owner as then. -/
theorem Jobs.outcome_eq {ids : List JobId} (hf : t.Fresh (j :: js))
    (hids : j.id ∈ ids ↔ t.answer j = .created) :
    ((t.add j).addAll js).outcome ids j = .ok (t.answer j) := by
  unfold Jobs.outcome
  cases hh : t.holder j with
  | none =>
    have ha : t.answer j = .created := by simp [Jobs.answer,hh]
    rw [if_pos (hids.mpr ha),ha]
  | some row =>
    obtain ⟨key,hkey,hown⟩ := Option.bind_eq_some_iff.mp hh
    have ha : t.answer j =
        if row.requestHash = j.requestHash then .replayed row.job.id else .conflict := by
      simp [Jobs.answer,hh]
    have hne : t.answer j ≠ .created := by
      rw [ha]
      split <;> simp
    have hlast : ((t.add j).addAll js).ownerOf key = some row := by
      have hall : (t.addAll (j :: js)).ownerOf key = some row := Jobs.ownerOf_addAll hf hown
      exact hall
    rw [if_neg (fun h => hne (hids.mp h)),hkey,Option.getD_some,hlast,ha]

/-- The loop over a suffix of the batch; `ids` are the ids the whole statement returned. -/
theorem Jobs.outcomes_eq {ids : List JobId} (hf : t.Fresh js)
    (hids : ∀ j ∈ js, j.id ∈ ids ↔ j.id ∈ t.createdIds js) :
    js.mapM ((t.addAll js).outcome ids) = .ok (t.answers js) := by
  induction js generalizing t with
  | nil => rfl
  | cons j js ih =>
    obtain ⟨hj,-⟩ := List.nodup_cons.mp hf.nodup
    have hhead : j.id ∈ ids ↔ t.answer j = .created := by
      rw [hids j List.mem_cons_self,Jobs.createdIds]
      have hno : j.id ∉ (t.add j).createdIds js := fun h => hj (Jobs.createdIds_sub h)
      split
      · next ha => simp [ha]
      · next ha => simp [ha,hno]
    have htail : ∀ k ∈ js, k.id ∈ ids ↔ k.id ∈ (t.add j).createdIds js := by
      intro k hk
      have hne : k.id ≠ j.id := fun h => hj (List.mem_map.mpr ⟨k,hk,h⟩)
      rw [hids k (List.mem_cons_of_mem _ hk),Jobs.createdIds]
      split
      · simp [hne]
      · rfl
    rw [List.mapM_cons]
    have h1 : (t.addAll (j :: js)).outcome ids j = .ok (t.answer j) := Jobs.outcome_eq hf hhead
    have h2 : js.mapM ((t.addAll (j :: js)).outcome ids) = .ok ((t.add j).answers js) :=
      ih hf.tail htail
    rw [h1,h2]
    rfl

theorem insertJobs_eq (hf : t.Fresh js) : insertJobs t js = (.ok (t.answers js),t.addAll js) := by
  unfold insertJobs
  rw [Jobs.insertAll_eq hf]
  exact congrArg (·,t.addAll js) (Jobs.outcomes_eq hf fun _ _ => .rfl)

theorem Jobs.length_answers (t : Jobs) (js : List NewJob) : (t.answers js).length = js.length := by
  induction js generalizing t with
  | nil => rfl
  | cons j js ih => simp [Jobs.answers,ih]

theorem Jobs.answers_append (t : Jobs) (js ks : List NewJob) :
    t.answers (js ++ ks) = t.answers js ++ (t.addAll js).answers ks := by
  induction js generalizing t with
  | nil => rfl
  | cons j js ih => simp [Jobs.answers,ih,Jobs.addAll]

theorem batcher_eq {α : Type} (batches : List (List (NewJob × α)))
    (hf : t.Fresh (batches.flatten.map (·.1))) :
    batcher t batches =
      ((batches.flatten.map (·.2)).zip ((t.answers (batches.flatten.map (·.1))).map .ok),
        t.addAll (batches.flatten.map (·.1))) := by
  induction batches generalizing t with
  | nil => rfl
  | cons batch rest ih =>
    simp only [List.flatten_cons,List.map_append] at hf ⊢
    simp only [batcher,ackBatch,insertJobs_eq hf.left,ih hf.right]
    rw [Jobs.answers_append,List.map_append,List.zip_append (by simp [Jobs.length_answers]),
      Jobs.addAll,Jobs.addAll,Jobs.addAll,List.foldl_append]

end Ingest

namespace Sample

def noJobs : Jobs := ⟨⟨[],.nil⟩,1⟩

end Sample

end GumEngine
