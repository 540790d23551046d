import GumEngine.Ingest.Canonical
import GumEngine.Ingest.Pending
import GumEngine.Pipeline.Released

/-!
# What becomes of a submission

From `submit` of `api.rs` and the batchers of any number of instances down to the chain. The INSERT
and the SELECTs of an `insert_jobs` are statements of their own, between which other batchers and the
pipeline move; a batcher may repeat jobs whose fate it does not know. A worker takes what was offered
to the queue of its chain. The table of jobs is seen twice: by ingest with its keys, by the pipeline
with its statuses.
-/

namespace GumEngine
open Relational Transition

variable {Sig : Type}

/-! ## A job stays on its chain -/

/-- `a` is on the chain of its job. -/
def Attempt.OnChain (s : Store) (a : Attempt) : Prop :=
  ∀ id, a.owner = .job id → ∃ j ∈ s.jobs.rows, j.id = id ∧ j.request.chainId = a.chainId

/-- The job that a worker takes is one of its own chain. -/
def CallEvent.Pops (w : World) : CallEvent → Prop
  | .task p (.execute i _) =>
    ∀ j ∈ w.store.jobs.rows, i.owner = .job j.id → j.request.chainId = p.chainId
  | _ => True

/-- What is committed or about to be is on the chain of its job. -/
structure OnChains (w : World) : Prop where
  bound : ∀ a ∈ w.bound, a.OnChain w.store
  pending : ∀ p a, (w.tasks p).pending = some a → a.OnChain w.store

section OnChain

variable {alloy : Alloy Sig} {chains : ChainId → ChainKind} {w : World} {p : PairKey}
  {i : CallInput} {goal : Goal} {a : Attempt} {s s' : Store}

theorem Attempt.OnChain.mono (h : a.OnChain s) (hk : s.KeepsJobs s') : a.OnChain s' := by
  intro id ho
  obtain ⟨j,hj,rfl,hchain⟩ := h id ho
  obtain ⟨j',hj',hid,hreq,-⟩ := hk j hj
  exact ⟨j',hj',hid,hreq ▸ hchain⟩

/-- Whatever a task has in flight is on its chain, and so is what it signs next. -/
theorem OnChains.held (h : OnChains w) (howned : (w.tasks p).Owned w p)
    (hown : (w.tasks p).Own p) {f : InFlight} (hf : f ∈ (w.tasks p).inFlight) {id : JobId}
    (hid : f.owner = .job id) :
    ∃ j ∈ w.store.jobs.rows, j.id = id ∧ j.request.chainId = p.chainId := by
  obtain ⟨ho,⟨b,hb,hrep⟩,-⟩ := howned.held f hf f.last f.last_mem
  obtain ⟨j,hj,hjid,hchain⟩ := h.bound b hb id (hrep.owner.symm.trans (ho.trans hid))
  have hslot : b.slot = p.slot f.nonce := hrep.slot.symm.trans (hown.held f hf f.last f.last_mem)
  exact ⟨j,hj,hjid,hchain.trans (congrArg Slot.chainId hslot)⟩

theorem OnChains.signed (h : OnChains w) (howned : (w.tasks p).Owned w p)
    (hown : (w.tasks p).Own p) (hissued : (CallEvent.task p i).Issued w)
    (hpops : (CallEvent.task p i).Pops w) (hs : Signed w p (i.lower alloy w p) goal a) :
    a.OnChain w.store := by
  intro id hid
  generalize hl : i.lower alloy w p = input at hs
  cases hs with
  | @execute owner g hp =>
    cases i with
    | execute intent quoted =>
      have ho : intent.owner = .job id := by
        simp only [CallInput.lower,Input.execute.injEq] at hl
        exact hl.1.trans hid
      have hint : w.store.Intends intent := hissued
      unfold Store.Intends at hint
      rw [ho] at hint
      obtain ⟨j,hj,hjid,-⟩ := hint
      exact ⟨j,hj,hjid,hpops j hj (by rw [ho,hjid])⟩
    | sign quoted =>
      simp only [CallInput.lower,hp] at hl
      cases hl
    | other i =>
      obtain rfl : i = .execute owner (.ok g) := hl
      cases hissued
  | @replace f g o hp ho =>
    exact h.held howned hown (by rw [hp]; rfl) hid
  | @cancel f g hp =>
    exact h.held howned hown (by rw [hp]; rfl) hid

theorem OnChains.op {o : Op} (h : OnChains w) (ho : o.Possible w) :
    OnChains (w.step chains (.op o)) := by
  have hkeeps : w.store.KeepsJobs (o.apply w.store) := Op.Possible.keepsJobs ho
  exact ⟨fun a ha => (h.bound a ha).mono hkeeps,fun p a ha => (h.pending p a ha).mono hkeeps⟩

theorem OnChains.step {e : CallEvent} (h : OnChains w) (hat : Attributed w) (ht : Traced w)
    (hposs : (e.lower alloy w).Possible w) (hissued : e.Issued w) (hpops : e.Pops w) :
    OnChains (w.step chains (e.lower alloy w)) := by
  cases e with
  | op o => exact h.op hposs
  | mine k m => exact ⟨h.bound,h.pending⟩
  | restart =>
    refine ⟨h.bound,?_⟩
    rintro p a ⟨⟩
  | task p i =>
    have hkeeps := (World.turn_turned chains (i.lower alloy w p) (ht.honest p)).keepsJobs
    refine ⟨fun a ha => ?_,fun q a ha => ?_⟩
    · have ha : a ∈ (w.turn chains p (i.lower alloy w p)).bound := ha
      rw [w.turn_bound chains p (i.lower alloy w p)] at ha
      rcases Tally.mem_bound ha with ha | ha
      · exact (h.bound a ha).mono hkeeps
      · exact (h.pending p a ha).mono hkeeps
    · rcases World.turn_pending ht ha with hold | ⟨rfl,goal,hs⟩
      · exact (h.pending q a hold).mono hkeeps
      · exact (h.signed (hat.owned q) (ht.own q) hissued hpops hs).mono hkeeps

end OnChain

/-! ## The service -/

/-- An INSERT that was answered: what it was asked, and the ids it returned. -/
structure InsertBatch where
  jobs : List NewJob
  ids : List JobId

structure Service where
  table : Jobs
  world : World
  submitted : List NewJob
  answered : List InsertBatch
  /-- What the callers were told. -/
  acks : List (NewJob × InsertOutcome)
  /-- What was offered to the queue of each chain. -/
  admitted : List (ChainId × JobId)

inductive ServiceEvent
  /-- An INSERT runs, perhaps long after its caller gave up on it. -/
  | insert (jobs : List NewJob) (call : Call)
  /-- The caller of one job of an INSERT is told, after a SELECT if it was skipped. -/
  | tell (a : InsertBatch) (j : NewJob)
  /-- The instance that created a job offers it to the queue of its chain. -/
  | offer (j : NewJob)
  /-- `admit_from_store` offers a row that it read for its chain. -/
  | sweep (chain : ChainId) (id : JobId)
  | engine (e : CallEvent)

namespace Service

theorem noRows : [].Pairwise fun a b : IngestRow => ¬ a.clash b := .nil

def start : Service := ⟨⟨⟨[],noRows⟩,1⟩,World.init,[],[],[],[]⟩

section Steps

variable (alloy : Alloy Sig) (chains : ChainId → ChainKind)

/-- The pipeline sees the rows of a statement one after the other. -/
def insertRows (w : World) (rows : List IngestRow) : World :=
  rows.foldl (fun w r => w.step chains (.op (.insertJob r.job.id r.job.request))) w

def insert (s : Service) (jobs : List NewJob) (call : Call) : Service :=
  let s := { s with submitted := jobs++s.submitted }
  match call,s.table.insertAll jobs with
  | .refused _,_ | _,.error _ => s
  | call,.ok (ids,table) => { s with
      table := table
      world := insertRows chains s.world (table.table.rows.drop s.table.table.rows.length)
      answered := if call = .answered then ⟨jobs,ids⟩ :: s.answered else s.answered }

/-- An error is answered as such: nothing is promised. -/
def tell (s : Service) (a : InsertBatch) (j : NewJob) : Service :=
  match s.table.outcome a.ids j with
  | .ok o => { s with acks := (j,o) :: s.acks }
  | .error _ => s

def step (s : Service) : ServiceEvent → Service
  | .insert jobs call => s.insert chains jobs call
  | .tell a j => s.tell a j
  | .offer j => { s with admitted := (j.request.chainId,j.id) :: s.admitted }
  | .sweep chain id => { s with admitted := (chain,id) :: s.admitted }
  | .engine e => { s with world := s.world.step chains (e.lower alloy s.world) }

end Steps

/-- A worker takes a job from the queue of its chain. -/
def Takes (s : Service) : CallEvent → Prop
  | .task p (.execute i _) => ∀ id, i.owner = .job id → (p.chainId,id) ∈ s.admitted
  | _ => True

/-- A submission has an id of its own, and carries the hash of its request; a job is offered once it
was created. -/
def Allowed (alloy : Alloy Sig) (chains : ChainId → ChainKind) (debug : Nat → String)
    (sha256 : ByteArray → Bytes) (s : Service) : ServiceEvent → Prop
  | .insert jobs _ => (∀ j ∈ jobs, j.requestHash = j.request.requestHash debug sha256) ∧
      ∀ j ∈ jobs, ∀ k ∈ jobs++s.submitted, j.id = k.id → j = k
  | .tell a j => a ∈ s.answered ∧ j ∈ a.jobs
  | .offer j => (j,.created) ∈ s.acks
  -- the row may have moved on since it was read
  | .sweep chain id => ∃ j ∈ s.world.store.jobs.rows, j.id = id ∧ j.request.chainId = chain
  | .engine e => (toldCaller alloy chains).allowed s.world e ∧ e.isInsert = false ∧ s.Takes e

def machine (alloy : Alloy Sig) (chains : ChainId → ChainKind) (debug : Nat → String)
    (sha256 : ByteArray → Bytes) : Machine Service ServiceEvent :=
  ⟨Allowed alloy chains debug sha256,step alloy chains⟩

/-! ## The two views of the table -/

section Insert

variable {t t' : Jobs} {jobs : List NewJob} {ids : List JobId}

/-- What a statement adds, and the ids it returns; no job without a key is skipped. -/
theorem insertAll_rows (h : t.insertAll jobs = .ok (ids,t')) :
    ∃ new, t'.table.rows = t.table.rows++new ∧
      (∀ r ∈ new, ∃ j ∈ jobs, r = .ofNew r.seq j) ∧ (∀ id ∈ ids, ∃ r ∈ new, r.job.id = id) ∧
      ∀ j ∈ jobs, j.idempotencyKey = none → j.id ∈ ids := by
  obtain ⟨⟨new,hrows,hof,hids⟩,-,hsettled,-⟩ := Jobs.insertAll_spec h
  refine ⟨new,hrows,hof,fun id => (hids id).mp,fun j hj hnone => ?_⟩
  refine (hsettled j hj).resolve_right fun hh => ?_
  rw [Jobs.holder,hnone] at hh
  cases hh

/-- Rows with different ids. -/
theorem rows_distinct (t : Jobs) : (t.table.rows.map (·.job.id)).Nodup :=
  List.pairwise_map.mpr (t.table.unique.imp fun h hid => h (Or.inl hid))

end Insert

section InsertRows

variable {alloy : Alloy Sig} {chains : ChainId → ChainKind} {w : World} {rows : List IngestRow}

theorem insertJob_fresh {st : Store} {id : JobId} {request : JobRequest}
    (h : ∀ j ∈ st.jobs.rows, j.id ≠ id) :
    ((Op.insertJob id request).apply st).jobs.rows = st.jobs.rows++[JobRow.new id request] := by
  have hno : ∀ b ∈ st.jobs.rows, ¬ b.id = (JobRow.new id request).id := h
  cases hi : st.jobs.insert (JobRow.new id request) with
  | none =>
    rw [Table.insert,dif_pos hno] at hi
    cases hi
  | some jobs =>
    have happly : (Op.insertJob id request).apply st = { st with jobs := jobs } := by
      simp only [Op.apply,GumEngine.insertJob,hi,Store.commit]
    rw [happly]
    exact (Table.insert_eq_some hi).1

/-- New rows become queued jobs. -/
theorem insertRows_jobs (hnew : ∀ r ∈ rows, ∀ j ∈ w.store.jobs.rows, j.id ≠ r.job.id)
    (hnodup : (rows.map (·.job.id)).Nodup) : (insertRows chains w rows).store.jobs.rows =
      w.store.jobs.rows++rows.map fun r => JobRow.new r.job.id r.job.request := by
  induction rows generalizing w with
  | nil => exact (List.append_nil _).symm
  | cons r rows ih =>
    have hrows : (w.step chains (.op (.insertJob r.job.id r.job.request))).store.jobs.rows =
        w.store.jobs.rows++[JobRow.new r.job.id r.job.request] :=
      insertJob_fresh (hnew r List.mem_cons_self)
    rw [List.map_cons,List.nodup_cons] at hnodup
    have htail := ih (w := w.step chains (.op (.insertJob r.job.id r.job.request)))
      (fun r' hr' j hj => ?_) hnodup.2
    · refine htail.trans ?_
      rw [hrows,List.append_assoc,List.map_cons,List.singleton_append]
    · rw [hrows] at hj
      rcases List.mem_append.mp hj with hj | hj
      · exact hnew r' (List.mem_cons_of_mem _ hr') j hj
      · rw [List.mem_singleton.mp hj]
        exact fun heq => hnodup.1 (List.mem_map.mpr ⟨r',hr',heq.symm⟩)

theorem insertRows_reaches (alloy : Alloy Sig) (w : World) (rows : List IngestRow) :
    (toldCaller alloy chains).Reaches w (insertRows chains w rows) := by
  induction rows generalizing w with
  | nil => exact .refl w
  | cons r rows ih =>
    have hallowed : (toldCaller alloy chains).allowed w
        (.op (.insertJob r.job.id r.job.request)) := ⟨⟨trivial,trivial⟩,trivial⟩
    exact ((Machine.Reaches.refl w).tail hallowed).trans (ih _)

end InsertRows

/-- The row that an answer rests on. -/
def Backed (t : Jobs) (j : NewJob) : InsertOutcome → Prop
  | .created => ∃ r ∈ t.table.rows, r.job.id = j.id
  | .replayed id => ∃ key, j.idempotencyKey = some key ∧ ∃ r ∈ t.table.rows,
      r.idempotencyKey = some key ∧ r.requestHash = j.requestHash ∧ r.job.id = id
  | .conflict => ∃ key, j.idempotencyKey = some key ∧ ∃ r ∈ t.table.rows,
      r.idempotencyKey = some key ∧ r.requestHash ≠ j.requestHash

/-- The table of ingest and that of the pipeline are one. -/
structure Mirrors (debug : Nat → String) (sha256 : ByteArray → Bytes) (s : Service) : Prop where
  hashed : ∀ j ∈ s.submitted, j.requestHash = j.request.requestHash debug sha256
  single : ∀ j ∈ s.submitted, ∀ k ∈ s.submitted, j.id = k.id → j = k
  rows : ∀ r ∈ s.table.table.rows, ∃ j ∈ s.submitted, r = .ofNew r.seq j
  stored : ∀ r ∈ s.table.table.rows, ∃ j ∈ s.world.store.jobs.rows,
    j.id = r.job.id ∧ j.request = r.job.request
  ids : ∀ j ∈ s.world.store.jobs.rows, ∃ r ∈ s.table.table.rows, r.job.id = j.id
  answered : ∀ a ∈ s.answered, (∀ j ∈ a.jobs, j ∈ s.submitted ∧
    (j.idempotencyKey = none → j.id ∈ a.ids)) ∧ ∀ id ∈ a.ids, ∃ r ∈ s.table.table.rows, r.job.id = id
  acks : ∀ a ∈ s.acks, a.1 ∈ s.submitted ∧ Backed s.table a.1 a.2

section Mirrors

variable {alloy : Alloy Sig} {chains : ChainId → ChainKind} {debug : Nat → String}
  {sha256 : ByteArray → Bytes} {s : Service}

theorem Backed.grows {t t' : Jobs} {j : NewJob} {o : InsertOutcome} (h : Backed t j o)
    (ht : ∀ r ∈ t.table.rows, r ∈ t'.table.rows) : Backed t' j o := by
  cases o with
  | created =>
    obtain ⟨r,hr,hid⟩ := h
    exact ⟨r,ht r hr,hid⟩
  | replayed id =>
    obtain ⟨key,hkey,r,hr,hrest⟩ := h
    exact ⟨key,hkey,r,ht r hr,hrest⟩
  | conflict =>
    obtain ⟨key,hkey,r,hr,hrest⟩ := h
    exact ⟨key,hkey,r,ht r hr,hrest⟩

theorem Mirrors.start (debug : Nat → String) (sha256 : ByteArray → Bytes) :
    Mirrors debug sha256 start where
  hashed _ hj := absurd hj List.not_mem_nil
  single _ hj := absurd hj List.not_mem_nil
  rows _ hr := absurd hr List.not_mem_nil
  stored _ hr := absurd hr List.not_mem_nil
  ids _ hj := absurd hj List.not_mem_nil
  answered _ ha := absurd ha List.not_mem_nil
  acks _ ha := absurd ha List.not_mem_nil

/-- What a statement does, when it does anything. -/
theorem insert_cases (chains : ChainId → ChainKind) (s : Service) (jobs : List NewJob) (call : Call) :
    s.insert chains jobs call = { s with submitted := jobs++s.submitted } ∨
    ∃ ids table, s.table.insertAll jobs = .ok (ids,table) ∧ ∃ answered,
      (answered = s.answered ∨ answered = ⟨jobs,ids⟩ :: s.answered) ∧
      s.insert chains jobs call = { s with
        table := table
        world := insertRows chains s.world (table.table.rows.drop s.table.table.rows.length)
        submitted := jobs++s.submitted
        answered := answered } := by
  cases hall : s.table.insertAll jobs with
  | error e =>
    refine Or.inl ?_
    unfold insert
    cases call <;> simp only [hall]
  | ok p =>
    obtain ⟨ids,table⟩ := p
    cases call with
    | refused e => exact Or.inl rfl
    | answered =>
      refine Or.inr ⟨ids,table,rfl,⟨jobs,ids⟩ :: s.answered,Or.inr rfl,?_⟩
      simp only [insert,hall,if_true]
    | lost e =>
      refine Or.inr ⟨ids,table,rfl,s.answered,Or.inl rfl,?_⟩
      simp only [insert,hall,reduceCtorEq,if_false]

/-- New submissions, of which nothing is stored yet. -/
theorem Mirrors.submit (h : Mirrors debug sha256 s) {jobs : List NewJob}
    (hhash : ∀ j ∈ jobs, j.requestHash = j.request.requestHash debug sha256)
    (hids : ∀ j ∈ jobs, ∀ k ∈ jobs++s.submitted, j.id = k.id → j = k) :
    Mirrors debug sha256 { s with submitted := jobs++s.submitted } where
  hashed j hj := (List.mem_append.mp hj).elim (hhash j) (h.hashed j)
  single j hj k hk hid := by
    rcases List.mem_append.mp hj with hj | hj
    · exact hids j hj k hk hid
    · rcases List.mem_append.mp hk with hk | hk
      · exact (hids k hk j (List.mem_append_right _ hj) hid.symm).symm
      · exact h.single j hj k hk hid
  rows r hr := by
    obtain ⟨j,hj,hr⟩ := h.rows r hr
    exact ⟨j,List.mem_append_right _ hj,hr⟩
  stored := h.stored
  ids := h.ids
  answered a ha := ⟨fun j hj => ⟨List.mem_append_right _ ((h.answered a ha).1 j hj).1,
    ((h.answered a ha).1 j hj).2⟩,(h.answered a ha).2⟩
  acks a ha := ⟨List.mem_append_right _ (h.acks a ha).1,(h.acks a ha).2⟩

/-- A new row has an id that the pipeline does not know, so it becomes a queued job. -/
theorem Mirrors.world_rows (h : Mirrors debug sha256 s) (chains : ChainId → ChainKind)
    {table : Jobs} {new : List IngestRow}
    (hrows : table.table.rows = s.table.table.rows++new) :
    (insertRows chains s.world (table.table.rows.drop s.table.table.rows.length)).store.jobs.rows =
      s.world.store.jobs.rows++new.map fun r => JobRow.new r.job.id r.job.request := by
  have hnodup := rows_distinct table
  rw [hrows,List.map_append,List.nodup_append'] at hnodup
  rw [hrows,List.drop_left]
  refine insertRows_jobs ?_ hnodup.2.1
  intro r hr j hj hid
  obtain ⟨r₀,hr₀,hid₀⟩ := h.ids j hj
  exact hnodup.2.2 (List.mem_map_of_mem hr₀) (List.mem_map.mpr ⟨r,hr,(hid₀.trans hid).symm⟩)

theorem Mirrors.insert (h : Mirrors debug sha256 s) {jobs : List NewJob} {call : Call}
    (hhash : ∀ j ∈ jobs, j.requestHash = j.request.requestHash debug sha256)
    (hids : ∀ j ∈ jobs, ∀ k ∈ jobs++s.submitted, j.id = k.id → j = k) :
    Mirrors debug sha256 (s.insert chains jobs call) := by
  have hsub := h.submit hhash hids
  rcases insert_cases chains s jobs call with heq | ⟨ids,table,hall,answered,hans,heq⟩
  · rw [heq]
    exact hsub
  · rw [heq]
    obtain ⟨new,hrows,hof,hnew,hkeyless⟩ := insertAll_rows hall
    have hworld := h.world_rows chains hrows
    have hold : ∀ r ∈ s.table.table.rows, r ∈ table.table.rows := by
      intro r hr
      rw [hrows]
      exact List.mem_append_left _ hr
    have hadded : ∀ r ∈ new, r ∈ table.table.rows := by
      intro r hr
      rw [hrows]
      exact List.mem_append_right _ hr
    refine ⟨hsub.hashed,hsub.single,fun r hr => ?_,fun r hr => ?_,fun j hj => ?_,fun a ha => ?_,
      fun a ha => ⟨(hsub.acks a ha).1,(h.acks a ha).2.grows hold⟩⟩
    · rcases List.mem_append.mp (hrows ▸ hr) with hr | hr
      · exact hsub.rows r hr
      · obtain ⟨j,hj,hr⟩ := hof r hr
        exact ⟨j,List.mem_append_left _ hj,hr⟩
    · rw [hworld]
      rcases List.mem_append.mp (hrows ▸ hr) with hr | hr
      · obtain ⟨j,hj,hrest⟩ := h.stored r hr
        exact ⟨j,List.mem_append_left _ hj,hrest⟩
      · exact ⟨_,List.mem_append_right _ (List.mem_map_of_mem hr),rfl,rfl⟩
    · rw [hworld] at hj
      rcases List.mem_append.mp hj with hj | hj
      · obtain ⟨r,hr,hid⟩ := h.ids j hj
        exact ⟨r,hold r hr,hid⟩
      · obtain ⟨r,hr,rfl⟩ := List.mem_map.mp hj
        exact ⟨r,hadded r hr,rfl⟩
    · have hbefore : ∀ a ∈ s.answered, (∀ j ∈ a.jobs, j ∈ jobs++s.submitted ∧
          (j.idempotencyKey = none → j.id ∈ a.ids)) ∧
            ∀ id ∈ a.ids, ∃ r ∈ table.table.rows, r.job.id = id := by
        intro a ha
        refine ⟨(hsub.answered a ha).1,fun id hid => ?_⟩
        obtain ⟨r,hr,hrid⟩ := (h.answered a ha).2 id hid
        exact ⟨r,hold r hr,hrid⟩
      rcases hans with rfl | rfl
      · exact hbefore a ha
      · rcases List.mem_cons.mp ha with rfl | ha
        · refine ⟨fun j hj => ⟨List.mem_append_left _ hj,hkeyless j hj⟩,fun id hid => ?_⟩
          obtain ⟨r,hr,hrid⟩ := hnew id hid
          exact ⟨r,hadded r hr,hrid⟩
        · exact hbefore a ha

/-- What a caller is told rests on a row. -/
theorem backed_outcome {t : Jobs} {ids : List JobId} {j : NewJob} {o : InsertOutcome}
    (h : t.outcome ids j = .ok o) (hids : ∀ id ∈ ids, ∃ r ∈ t.table.rows, r.job.id = id)
    (hkeyless : j.idempotencyKey = none → j.id ∈ ids) : Backed t j o := by
  unfold Jobs.outcome at h
  split at h
  · next hin =>
    cases h
    exact hids j.id hin
  · next hin =>
    obtain ⟨key,hkey⟩ := Option.ne_none_iff_exists'.mp fun hnone => hin (hkeyless hnone)
    split at h
    · next row hrow =>
      rw [hkey,Option.getD_some,Jobs.ownerOf] at hrow
      have hmem := List.mem_of_find?_eq_some hrow
      have hown : row.idempotencyKey = some key := by simpa using List.find?_some hrow
      by_cases hhash : row.requestHash = j.requestHash
      · rw [if_pos hhash] at h
        cases h
        exact ⟨key,hkey,row,hmem,hown,hhash,rfl⟩
      · rw [if_neg hhash] at h
        cases h
        exact ⟨key,hkey,row,hmem,hown,hhash⟩
    · cases h

theorem Mirrors.tell (h : Mirrors debug sha256 s) {a : InsertBatch} {j : NewJob}
    (ha : a ∈ s.answered) (hj : j ∈ a.jobs) : Mirrors debug sha256 (s.tell a j) := by
  obtain ⟨hjobs,hids⟩ := h.answered a ha
  obtain ⟨hsub,hkeyless⟩ := hjobs j hj
  unfold Service.tell
  cases ho : s.table.outcome a.ids j with
  | error e => exact h
  | ok o =>
    refine ⟨h.hashed,h.single,h.rows,h.stored,h.ids,h.answered,fun b hb => ?_⟩
    rcases List.mem_cons.mp hb with rfl | hb
    · exact ⟨hsub,backed_outcome ho hids hkeyless⟩
    · exact h.acks b hb

theorem Mirrors.engine (h : Mirrors debug sha256 s) (ht : Traced s.world) {e : CallEvent}
    (he : (e.lower alloy s.world).Possible s.world) (hi : e.isInsert = false) :
    Mirrors debug sha256 { s with world := s.world.step chains (e.lower alloy s.world) } := by
  obtain ⟨hkeeps,hrewrites⟩ := step_jobs chains ht he hi
  refine ⟨h.hashed,h.single,h.rows,fun r hr => ?_,fun j hj => ?_,h.answered,h.acks⟩
  · obtain ⟨j,hj,hid,hreq⟩ := h.stored r hr
    obtain ⟨j',hj',hid',hreq',-⟩ := hkeeps j hj
    exact ⟨j',hj',hid'.trans hid,hreq'.trans hreq⟩
  · obtain ⟨j₀,hj₀,hid₀,-⟩ := hrewrites.back hj
    obtain ⟨r,hr,hid⟩ := h.ids j₀ hj₀
    exact ⟨r,hr,hid.trans hid₀⟩

/-- A step of the service is a run of the engine below it. -/
theorem engine_step {e : ServiceEvent}
    (hs : (toldCaller alloy chains).Reaches World.init s.world)
    (he : s.Allowed alloy chains debug sha256 e) :
    (toldCaller alloy chains).Reaches World.init (s.step alloy chains e).world := by
  cases e with
  | insert jobs call =>
    show (toldCaller alloy chains).Reaches World.init (s.insert chains jobs call).world
    rcases insert_cases chains s jobs call with heq | ⟨ids,table,-,answered,-,heq⟩
    · rw [heq]
      exact hs
    · rw [heq]
      exact hs.trans (insertRows_reaches alloy s.world _)
  | tell a j =>
    show (toldCaller alloy chains).Reaches World.init (s.tell a j).world
    unfold Service.tell
    split
    · exact hs
    · exact hs
  | offer j => exact hs
  | sweep chain id => exact hs
  | engine e => exact hs.tail he.1

theorem engine_reaches (h : (machine alloy chains debug sha256).Reaches start s) :
    (toldCaller alloy chains).Reaches World.init s.world :=
  h.invariant (I := fun s => (toldCaller alloy chains).Reaches World.init s.world) (.refl _)
    fun _ _ hs he => engine_step hs he

theorem Mirrors.reaches (h : (machine alloy chains debug sha256).Reaches Service.start s) :
    Mirrors debug sha256 s := by
  refine (h.invariant (I := fun s => (toldCaller alloy chains).Reaches World.init s.world ∧
    Mirrors debug sha256 s) ⟨.refl _,.start debug sha256⟩ ?_).2
  rintro s e ⟨hreach,hs⟩ he
  refine ⟨engine_step hreach he,?_⟩
  cases e with
  | insert jobs call => exact hs.insert he.1 he.2
  | tell a j => exact hs.tell he.1 he.2
  | offer j => exact ⟨hs.hashed,hs.single,hs.rows,hs.stored,hs.ids,hs.answered,hs.acks⟩
  | sweep chain id => exact ⟨hs.hashed,hs.single,hs.rows,hs.stored,hs.ids,hs.answered,hs.acks⟩
  | engine e =>
    exact hs.engine (Sound.reaches (toldDriver_of_caller hreach)).1 he.1.1.1 he.2.1

end Mirrors

/-! ## The queues -/

/-- What was offered to the queue of a chain, and what was committed there, are jobs of the chain. -/
structure Placed (s : Service) : Prop where
  admitted : ∀ c id, (c,id) ∈ s.admitted → ∃ j ∈ s.world.store.jobs.rows,
    j.id = id ∧ j.request.chainId = c
  chains : OnChains s.world

section Placed

variable {alloy : Alloy Sig} {chains : ChainId → ChainKind} {debug : Nat → String}
  {sha256 : ByteArray → Bytes} {s : Service}

theorem Placed.start : Placed start := by
  refine ⟨fun c id h => absurd h List.not_mem_nil,fun a ha => absurd ha List.not_mem_nil,?_⟩
  rintro p a ⟨⟩

/-- A new job is offered where its request says. -/
theorem Mirrors.created (h : Mirrors debug sha256 s) {j : NewJob} (hj : (j,.created) ∈ s.acks) :
    ∃ row ∈ s.world.store.jobs.rows, row.id = j.id ∧ row.request = j.request := by
  obtain ⟨hsub,r,hr,hid⟩ := h.acks _ hj
  obtain ⟨k,hk,hrk⟩ := h.rows r hr
  have hkid : k.id = j.id := by
    rw [← hid,hrk]
    rfl
  obtain rfl := h.single k hk j hsub hkid
  obtain ⟨row,hrow,hrid,hreq⟩ := h.stored r hr
  refine ⟨row,hrow,hrid.trans hid,hreq.trans ?_⟩
  rw [hrk]
  rfl

theorem insertRows_keeps (chains : ChainId → ChainKind) {w : World} (rows : List IngestRow)
    (hw : OnChains w) :
    w.store.KeepsJobs (insertRows chains w rows).store ∧ OnChains (insertRows chains w rows) := by
  induction rows generalizing w with
  | nil => exact ⟨.rfl' w.store,hw⟩
  | cons r rows ih =>
    have hposs : (Op.insertJob r.job.id r.job.request).Possible w := trivial
    have hkeeps : w.store.KeepsJobs (w.step chains (.op (.insertJob r.job.id r.job.request))).store :=
      hposs.keepsJobs
    obtain ⟨hrest,hon⟩ := ih (hw.op hposs)
    exact ⟨hkeeps.trans hrest,hon⟩

/-- The queues know the jobs that they knew, and the pipeline moves on. -/
theorem Placed.moves (h : s.Placed) {s' : Service} (ha : s'.admitted = s.admitted)
    (hkeeps : s.world.store.KeepsJobs s'.world.store) (hon : OnChains s'.world) : s'.Placed := by
  refine ⟨fun c id hmem => ?_,hon⟩
  obtain ⟨j,hj,hid,hc⟩ := h.admitted c id (ha ▸ hmem)
  obtain ⟨j',hj',hid',hreq,-⟩ := hkeeps j hj
  exact ⟨j',hj',hid'.trans hid,hreq ▸ hc⟩

/-- What a worker takes from the queue of its chain is a job of the chain. -/
theorem Placed.pops (h : s.Placed) {e : CallEvent} (he : s.Takes e) : e.Pops s.world := by
  cases e with
  | task p i =>
    cases i with
    | execute i quoted =>
      intro j hj ho
      obtain ⟨j',hj',hid,hc⟩ := h.admitted p.chainId j.id (he j.id ho)
      obtain rfl := s.world.store.jobs.eq_of_key hj' hj hid
      exact hc
    | _ => trivial
  | _ => trivial

theorem Placed.step (h : s.Placed) (hacc : Accounted alloy s.world) (hm : Mirrors debug sha256 s)
    {e : ServiceEvent} (he : s.Allowed alloy chains debug sha256 e) :
    (s.step alloy chains e).Placed := by
  cases e with
  | insert jobs call =>
    show (s.insert chains jobs call).Placed
    rcases insert_cases chains s jobs call with heq | ⟨ids,table,-,answered,-,heq⟩
    · rw [heq]
      exact ⟨h.admitted,h.chains⟩
    · rw [heq]
      obtain ⟨hkeeps,hon⟩ := insertRows_keeps chains
        (table.table.rows.drop s.table.table.rows.length) h.chains
      exact h.moves rfl hkeeps hon
  | tell a j =>
    show (s.tell a j).Placed
    unfold Service.tell
    split
    · exact ⟨h.admitted,h.chains⟩
    · exact h
  | offer j =>
    refine ⟨fun c id hmem => ?_,h.chains⟩
    rcases List.mem_cons.mp hmem with heq | hmem
    · obtain ⟨rfl,rfl⟩ := Prod.mk.inj heq
      obtain ⟨row,hrow,hid,hreq⟩ := hm.created he
      exact ⟨row,hrow,hid,hreq ▸ rfl⟩
    · exact h.admitted c id hmem
  | sweep chain id =>
    refine ⟨fun c id hmem => ?_,h.chains⟩
    rcases List.mem_cons.mp hmem with heq | hmem
    · obtain ⟨rfl,rfl⟩ := Prod.mk.inj heq
      exact he
    · exact h.admitted c id hmem
  | engine e =>
    obtain ⟨⟨⟨hposs,hissued⟩,-⟩,hi,htakes⟩ := he
    exact h.moves rfl (step_jobs chains hacc.traced hposs hi).1
      (h.chains.step hacc.attributed hacc.traced hposs hissued (h.pops htakes))

theorem Placed.reaches (hinv : alloy.Inverts)
    (h : (machine alloy chains debug sha256).Reaches Service.start s) : s.Placed := by
  refine (h.invariant (I := fun s => (machine alloy chains debug sha256).Reaches Service.start s ∧
    s.Placed) ⟨.refl _,.start⟩ ?_).2
  rintro s e ⟨hreach,hp⟩ he
  have hacc := Accounted.reaches hinv (orderlyCaller_of_told hinv (engine_reaches hreach))
  exact ⟨hreach.tail he,hp.step hacc (Mirrors.reaches hreach) he⟩

end Placed

end Service

/-! ## What the caller can rely on -/

/-- `j` and `k` are one submission: the same, or under one idempotency key. -/
def NewJob.Same (j k : NewJob) : Prop :=
  j = k ∨ j.idempotencyKey.isSome ∧ j.idempotencyKey = k.idempotencyKey

/-- The caller of `j` was told that its job is `id`. -/
def Service.Accepted (s : Service) (j : NewJob) (id : JobId) : Prop :=
  (j,.created) ∈ s.acks ∧ id = j.id ∨ (j,.replayed id) ∈ s.acks

/-- The chain took `r` for the job that the caller of `j` was told. -/
def Service.Lands (s : Service) (j : NewJob) (r : AttemptRow) : Prop :=
  ∃ row ∈ s.world.store.jobs.rows, s.Accepted j row.id ∧ r.Executes s.world.store row ∧
    s.world.Mines r

/-- What was answered is kept. -/
structure Honours (alloy : Alloy Sig) (s : Service) : Prop where
  stored : ∀ j id, s.Accepted j id → ∃ row ∈ s.world.store.jobs.rows, row.id = id ∧
    row.request = j.request
  one : ∀ j k id id', s.Accepted j id → s.Accepted k id' → (id = id' ↔ j.Same k)
  once : ∀ j k r r', j.Same k → s.Lands j r → s.Lands k r' → r = r'
  makes : ∀ j r, s.Lands j r → ∃ a ∈ s.world.bound, a.txHash = r.txHash ∧ a.slot = r.slot ∧
    a.chainId = j.request.chainId ∧ a.Makes alloy j.request
  failed : ∀ j r, s.Lands j r → ∀ row ∈ s.world.store.jobs.rows, s.Accepted j row.id →
    row.status ≠ .failed
  refused : ∀ j, (j,.conflict) ∈ s.acks → ∃ k ∈ s.submitted, k.Same j ∧ k.request ≠ j.request

/-- The hash function keeps the texts of the submitted requests apart. -/
def Service.KeptApart (debug : Nat → String) (sha256 : ByteArray → Bytes) (s : Service) : Prop :=
  ∀ j ∈ s.submitted, ∀ k ∈ s.submitted,
    sha256 (j.request.canonical debug).toByteArray =
      sha256 (k.request.canonical debug).toByteArray →
    (j.request.canonical debug).toByteArray = (k.request.canonical debug).toByteArray

section Honours

variable {alloy : Alloy Sig} {chains : ChainId → ChainKind} {debug : Nat → String}
  {sha256 : ByteArray → Bytes} {s : Service} {j k : NewJob} {id id' : JobId}

/-- Rows under one key, or with one id, are one row. -/
theorem Jobs.row_unique {t : Jobs} {r r' : IngestRow} (hr : r ∈ t.table.rows)
    (hr' : r' ∈ t.table.rows) (h : r.clash r') : r = r' :=
  t.table.eq_of_clash (fun _ _ => IngestRow.clash_symm) hr hr' h

/-- The row behind an answer holds the key and, as its hash shows, the request. -/
theorem Service.Mirrors.accepted (h : s.Mirrors debug sha256) (hdebug : Function.Injective debug)
    (hbar : ∀ i, '|' ∉ (debug i).toList) (hsha : s.KeptApart debug sha256)
    (ha : s.Accepted j id) : j ∈ s.submitted ∧ ∃ r ∈ s.table.table.rows, r.job.id = id ∧
      r.idempotencyKey = j.idempotencyKey ∧ r.job.request = j.request ∧
      (j.idempotencyKey = none → id = j.id) := by
  rcases ha with ⟨ha,rfl⟩ | ha
  · obtain ⟨hsub,r,hr,hid⟩ := h.acks _ ha
    obtain ⟨k,hk,hrk⟩ := h.rows r hr
    have hkid : k.id = j.id := by
      rw [← hid,hrk]
      rfl
    obtain rfl := h.single k hk j hsub hkid
    refine ⟨hsub,r,hr,hid,?_,?_,fun _ => rfl⟩
    · rw [hrk]
      rfl
    · rw [hrk]
      rfl
  · obtain ⟨hsub,key,hkey,r,hr,hrkey,hhash,hid⟩ := h.acks _ ha
    obtain ⟨k,hk,hrk⟩ := h.rows r hr
    refine ⟨hsub,r,hr,hid,hrkey.trans hkey.symm,?_,fun hnone => ?_⟩
    · have hkhash : k.requestHash = j.requestHash := by
        rw [← hhash,hrk]
        rfl
      rw [h.hashed k hk,h.hashed j hsub] at hkhash
      have heq := (JobRequest.requestHash_inj hdebug hbar (hsha k hk j hsub)).1 hkhash
      rw [← heq,hrk]
      rfl
    · rw [hnone] at hkey
      cases hkey

theorem Service.Mirrors.same_id (h : s.Mirrors debug sha256) (hdebug : Function.Injective debug)
    (hbar : ∀ i, '|' ∉ (debug i).toList) (hsha : s.KeptApart debug sha256)
    (ha : s.Accepted j id) (ha' : s.Accepted k id') : id = id' ↔ j.Same k := by
  obtain ⟨hj,r,hr,hid,hkey,-,hnone⟩ := h.accepted hdebug hbar hsha ha
  obtain ⟨hk,r',hr',hid',hkey',-,hnone'⟩ := h.accepted hdebug hbar hsha ha'
  have hkeyed (hsome : j.idempotencyKey.isSome) (hkeys : j.idempotencyKey = k.idempotencyKey) :
      id = id' := by
    obtain rfl := Jobs.row_unique hr hr'
      (.inr ⟨by rwa [hkey],hkey.trans (hkeys.trans hkey'.symm)⟩)
    exact hid.symm.trans hid'
  constructor
  · intro heq
    obtain rfl := Jobs.row_unique hr hr' (.inl (hid.trans (heq.trans hid'.symm)))
    have hkeys : j.idempotencyKey = k.idempotencyKey := hkey.symm.trans hkey'
    cases hjk : j.idempotencyKey with
    | some key => exact .inr ⟨by rw [hjk,Option.isSome_some],hkeys⟩
    | none =>
      have hids : j.id = k.id := by
        rw [← hnone hjk,← hnone' (hkeys.symm.trans hjk),heq]
      exact .inl (h.single j hj k hk hids)
  · rintro (rfl | ⟨hsome,hkeys⟩)
    · cases hjk : j.idempotencyKey with
      | none => rw [hnone hjk,hnone' hjk]
      | some key => exact hkeyed (by rw [hjk,Option.isSome_some]) rfl
    · exact hkeyed hsome hkeys

theorem Service.Mirrors.stored_request (h : s.Mirrors debug sha256)
    (hdebug : Function.Injective debug) (hbar : ∀ i, '|' ∉ (debug i).toList)
    (hsha : s.KeptApart debug sha256) (ha : s.Accepted j id) :
    ∃ row ∈ s.world.store.jobs.rows, row.id = id ∧ row.request = j.request := by
  obtain ⟨-,r,hr,hid,-,hreq,-⟩ := h.accepted hdebug hbar hsha ha
  obtain ⟨row,hmem,hrid,hrreq⟩ := h.stored r hr
  exact ⟨row,hmem,hrid.trans hid,hrreq.trans hreq⟩

/-- A conflict is answered only when the key belongs to another request. -/
theorem Service.Mirrors.conflict (h : s.Mirrors debug sha256) (hj : (j,.conflict) ∈ s.acks) :
    ∃ k ∈ s.submitted, k.Same j ∧ k.request ≠ j.request := by
  obtain ⟨hsub,key,hkey,r,hr,hrkey,hhash⟩ := h.acks _ hj
  obtain ⟨k,hk,hrk⟩ := h.rows r hr
  have hkk : k.idempotencyKey = some key := by
    rw [← hrkey,hrk]
    rfl
  refine ⟨k,hk,.inr ⟨by rw [hkk,Option.isSome_some],hkk.trans hkey.symm⟩,fun heq => hhash ?_⟩
  rw [h.hashed j hsub,← heq,← h.hashed k hk,hrk]
  rfl

/-- The attempts of a job that can be mined are at one nonce, which the chain takes once. -/
theorem Sound.mines_once {w : World} (h : Sound w) {r r' : AttemptRow} {row : JobRow}
    (hr : r.Executes w.store row) (hr' : r'.Executes w.store row) (hm : w.Mines r)
    (hm' : w.Mines r') : r = r' := by
  have hslot := h.jobs.home r hr.1 r' hr'.1 (h.not_dropped hr.1 hm) (h.not_dropped hr'.1 hm')
    row.id hr.2.1 hr'.2.1
  unfold World.Mines at hm hm'
  rw [hslot] at hm
  exact hash_unique hr.1 hr'.1 (Mined.ours.inj (Option.some.inj (hm.symm.trans hm')))

theorem Sound.mines_live {w : World} (h : Sound w) {r : AttemptRow} {row : JobRow}
    (hrow : row ∈ w.store.jobs.rows) (hr : r.Executes w.store row) (hm : w.Mines r) :
    row.status ≠ .failed := by
  intro hf
  rcases h.jobs.failed row hrow hf r hr.1 hr.2.1 hr.2.2 with hd | ⟨m,hm',hne⟩
  · exact h.not_dropped hr.1 hm hd
  · exact hne (Option.some.inj (hm'.symm.trans hm))

/-- An attempt that executes a job is no cancel, so it was signed for the job's call. -/
theorem Accounted.makes {w : World} (h : Accounted alloy w) (hon : OnChains w) {r : AttemptRow}
    {row : JobRow} (hrow : row ∈ w.store.jobs.rows) (hr : r.Executes w.store row) :
    ∃ a ∈ w.bound, a.txHash = r.txHash ∧ a.slot = r.slot ∧ a.chainId = row.request.chainId ∧
      a.Makes alloy row.request := by
  obtain ⟨hmem,hjob,hpurpose⟩ := hr
  obtain ⟨a,ha,hcol⟩ := h.attributed.rooted.columns r.columns (List.mem_map_of_mem hmem)
  have hhash : r.txHash = a.txHash := congrArg AttemptRow.txHash hcol
  have hslot : r.slot = a.slot := congrArg AttemptRow.slot hcol
  have hjob' : r.jobId = a.owner.jobId := congrArg AttemptRow.jobId hcol
  have hpurpose' : r.purpose = a.purpose := congrArg AttemptRow.purpose hcol
  have hown : a.owner = .job row.id := SlotOwner.of_jobId (hjob'.symm.trans hjob)
  obtain ⟨row',hrow',hid,hcalls⟩ := h.faithful.calls a ha row.id hown
  obtain rfl := w.store.jobs.eq_of_key hrow' hrow hid
  obtain ⟨row'',hrow'',hid',hchain⟩ := hon.bound a ha row'.id hown
  obtain rfl := w.store.jobs.eq_of_key hrow'' hrow hid'
  refine ⟨a,ha,hhash.symm,hslot.symm,hchain.symm,hcalls.resolve_right fun hy => ?_⟩
  rw [hpurpose,hy.purpose] at hpurpose'
  cases hpurpose'

/-- Whoever was told of a job finds it under its request. However often it was submitted it is
executed at most once, by the call it asks for and nothing else. -/
theorem submissions_honoured (hinv : alloy.Inverts) (hdebug : Function.Injective debug)
    (hbar : ∀ i, '|' ∉ (debug i).toList)
    (h : (Service.machine alloy chains debug sha256).Reaches Service.start s)
    (hsha : s.KeptApart debug sha256) : Honours alloy s := by
  have hmir := Service.Mirrors.reaches h
  have hreach := Service.engine_reaches h
  have hsound := (Sound.reaches (toldDriver_of_caller hreach)).2
  have hacc := Accounted.reaches hinv (orderlyCaller_of_told hinv hreach)
  have hon := (Service.Placed.reaches hinv h).chains
  have hone : ∀ j k id id', s.Accepted j id → s.Accepted k id' → (id = id' ↔ j.Same k) :=
    fun j k id id' ha ha' => hmir.same_id hdebug hbar hsha ha ha'
  refine ⟨fun j id ha => hmir.stored_request hdebug hbar hsha ha,hone,?_,?_,?_,
    fun j hj => hmir.conflict hj⟩
  · rintro j k r r' hsame ⟨row,hrow,ha,hr,hm⟩ ⟨row',hrow',ha',hr',hm'⟩
    have hid : row.id = row'.id := (hone j k row.id row'.id ha ha').2 hsame
    obtain rfl := s.world.store.jobs.eq_of_key hrow hrow' hid
    exact hsound.mines_once hr hr' hm hm'
  · rintro j r ⟨row,hrow,ha,hr,-⟩
    obtain ⟨row',hrow',hid,hreq⟩ := hmir.stored_request hdebug hbar hsha ha
    obtain rfl := s.world.store.jobs.eq_of_key hrow' hrow hid
    rw [← hreq]
    exact hacc.makes hon hrow hr
  · rintro j r ⟨row,hrow,ha,hr,hm⟩ row' hrow' ha'
    have hid : row.id = row'.id := (hone j j row.id row'.id ha ha').2 (.inl rfl)
    obtain rfl := s.world.store.jobs.eq_of_key hrow hrow' hid
    exact hsound.mines_live hrow hr hm

end Honours

/-! ## Four submissions, three under one key -/

deriving instance DecidableEq for NewJob, InsertBatch

instance (alloy : Alloy Sig) (chains : ChainId → ChainKind) (w : World) (e : CallEvent) :
    Decidable ((toldCaller alloy chains).allowed w e) :=
  inferInstanceAs (Decidable (((e.lower alloy w).Possible w ∧ e.Issued w) ∧ (e.lower alloy w).Told w))

instance (s : Service) : DecidablePred s.Takes
  | .task p (.execute i _) => inferInstanceAs
      (Decidable (∀ id, i.owner = .job id → (p.chainId,id) ∈ s.admitted))
  | .op _ | .mine _ _ | .restart | .task _ (.sign _) | .task _ (.other _) => .isTrue trivial

instance (alloy : Alloy Sig) (chains : ChainId → ChainKind) (debug : Nat → String)
    (sha256 : ByteArray → Bytes) (s : Service) (e : ServiceEvent) :
    Decidable ((Service.machine alloy chains debug sha256).allowed s e) :=
  match e with
  | .insert jobs _ => inferInstanceAs (Decidable
      ((∀ j ∈ jobs, j.requestHash = j.request.requestHash debug sha256) ∧
        ∀ j ∈ jobs, ∀ k ∈ jobs++s.submitted, j.id = k.id → j = k))
  | .tell a j => inferInstanceAs (Decidable (a ∈ s.answered ∧ j ∈ a.jobs))
  | .offer j => inferInstanceAs (Decidable ((j,.created) ∈ s.acks))
  | .sweep chain id => inferInstanceAs
      (Decidable (∃ j ∈ s.world.store.jobs.rows, j.id = id ∧ j.request.chainId = chain))
  | .engine e => inferInstanceAs (Decidable
      ((toldCaller alloy chains).allowed s.world e ∧ e.isInsert = false ∧ s.Takes e))

namespace Sample

def submit (r : JobRequest) (id : JobId) (key : Option String) : NewJob :=
  r.newJob instant digest id key

/-- The answer to the INSERT of job 1 is lost, so the batcher repeats it, and the job is swept up.
Job 2 asks for the same under the same key, job 3 for something else, and job 4 has no key. -/
def repeatedRun : List ServiceEvent :=
  let first := submit plainRequest 1 (some "k")
  let second := submit plainRequest 2 (some "k")
  let third := submit timedRequest 3 (some "k")
  let fourth := submit plainRequest 4 none
  let other i := ServiceEvent.engine (.task pair (.other i))
  [.insert [first] (.lost ⟨.db .io,StoreError.io_transient⟩),.insert [first] .answered,
    .tell ⟨[first],[]⟩ first,.insert [third,fourth] .answered,.sweep 1 1,other .recover,
    other (.recoverDone (some 0)),
    .engine (.task pair (.execute (.ofJob 1 plainRequest 6) (.ok (quote 1 5)))),other round,
    other .deliver,.engine (.mine (pair.slot 0) (.ours 51)),other (.answer .accepted),
    .insert [second] .answered,.tell ⟨[third,fourth],[4]⟩ third,.tell ⟨[third,fourth],[4]⟩ fourth,
    .offer fourth,.tell ⟨[second],[]⟩ second]

end Sample

theorem submissions_honoured_repeated :
    ∃ s, (Service.machine Sample.codec Sample.chains Sample.instant Sample.digest).Reaches
        Service.start s ∧
      s.acks.map (fun a => (a.1.id,a.2)) =
        [(2,.replayed 1),(4,.created),(3,.conflict),(1,.replayed 1)] ∧
      s.world.mined (Sample.pair.slot 0) = some (.ours 51) ∧ Honours Sample.codec s := by
  have hrun : (Service.machine Sample.codec Sample.chains Sample.instant Sample.digest).Runs
      Service.start Sample.repeatedRun := by
    decide +kernel
  refine ⟨_,hrun.reaches,by decide +kernel,by decide +kernel,?_⟩
  exact submissions_honoured Sample.codec_inverts Sample.instant_injective Sample.bar_notMem_instant
    hrun.reaches (by unfold Service.KeptApart; decide +kernel)

end GumEngine
