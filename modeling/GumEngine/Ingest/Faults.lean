import GumEngine.Ingest.Pending
import GumEngine.Pipeline.Bind

/-!
# Group commit when the database fails

`Store::insert_jobs` and `store/batcher.rs` with the answers of the database as inputs: an INSERT whose
answer is lost may run at any later time, or it is refused, and any SELECT after it may fail. The
fallback repeats the rows of a batch that may be durable by then, or become so afterwards.
-/

namespace GumEngine
open Relational Transition

/-- What becomes of the statements of one `insert_jobs`: of its INSERT, and of the SELECT for each job
it skipped. Before each some INSERTs of earlier calls run, of those whose answer was lost. -/
structure Answers where
  before : List Nat
  insert : Call
  late : JobId → List Nat
  select : JobId → Option StoreError

/-- What becomes of the statements of one batch: of the batched ones, and of those for each
row of the fallback. -/
structure BatchAnswers where
  batch : Answers
  row : JobId → Answers

def Jobs.outcomeWith (a : Answers) (t : Jobs) (inserted : List JobId) (j : NewJob) :
    Except StoreError InsertOutcome :=
  if j.id ∈ inserted then .ok .created else
  match a.select j.id with
  | some e => .error e
  | none => t.outcome inserted j

/-- The loop over the jobs of a statement; the first SELECT that fails ends it. -/
def outcomesWith (a : Answers) (inserted : List JobId) :
    Db → List NewJob → Except StoreError (List InsertOutcome) × Db
  | db,[] => (.ok [],db)
  | db,j :: jobs =>
    let db := db.arrive (a.late j.id)
    match db.jobs.outcomeWith a inserted j with
    | .error e => (.error e,db)
    | .ok outcome =>
      let (rest,db) := outcomesWith a inserted db jobs
      (rest.map fun outcomes => outcome :: outcomes,db)

def insertJobsWith (a : Answers) (db : Db) (jobs : List NewJob) :
    Except StoreError (List InsertOutcome) × Db :=
  let db := db.arrive a.before
  match a.insert,db.jobs.insertAll jobs with
  | .refused e,_ => (.error e,db)
  | .lost e,_ => (.error e.val,{ db with pending := db.pending ++ [jobs] })
  | .answered,.error e => (.error e,db)
  | .answered,.ok (inserted,t) => outcomesWith a inserted { db with jobs := t } jobs

/-- The fallback: every row on its own. -/
def ackRowsWith (f : BatchAnswers) :
    Db → List NewJob → List (NewJob × Except StoreError InsertOutcome) × Db
  | db,[] => ([],db)
  | db,j :: jobs =>
    let (result,db) := insertJobsWith (f.row j.id) db [j]
    let (acks,db) := ackRowsWith f db jobs
    ((j,result.map fun o => o.headD .created) :: acks,db)

/-- One poisoned row must not fail its neighbours: fall back to row-by-row. -/
def ackBatchWith (f : BatchAnswers) (db : Db) (jobs : List NewJob) :
    List (NewJob × Except StoreError InsertOutcome) × Db :=
  match insertJobsWith f.batch db jobs with
  | (.ok outcomes,db) => (jobs.zip (outcomes.map .ok),db)
  | (.error _,db) => ackRowsWith f db jobs

/-- The batches of a run, and the INSERTs that run after all of them. -/
def batcherWith (last : List Nat) :
    Db → List (BatchAnswers × List NewJob) →
      List (NewJob × Except StoreError InsertOutcome) × Db
  | db,[] => ([],db.arrive last)
  | db,(f,jobs) :: rest =>
    let (acks,db) := ackBatchWith f db jobs
    let (more,db) := batcherWith last db rest
    (acks ++ more,db)

/-- What the callers of `submit` are promised: a job that was answered with an error is not
stored. -/
def Truthful (acks : List (NewJob × Except StoreError InsertOutcome)) (t : Jobs) : Prop :=
  ∀ j e, (j,.error e) ∈ acks → ¬ t.Stored j.id

/-! ## Where nothing fails -/

/-- Everything is answered, and nothing runs late. -/
def Answers.calm : Answers := ⟨[],.answered,fun _ => [],fun _ => none⟩

def BatchAnswers.calm : BatchAnswers := ⟨.calm,fun _ => .calm⟩

section Calm

variable {t : Jobs} {ids : List JobId}

theorem outcomesWith_calm (jobs : List NewJob) :
    outcomesWith .calm ids ⟨t,[]⟩ jobs = (jobs.mapM (t.outcome ids),⟨t,[]⟩) := by
  induction jobs with
  | nil => rfl
  | cons j jobs ih =>
    have hone : t.outcomeWith .calm ids j = t.outcome ids j := by
      unfold Jobs.outcomeWith Jobs.outcome
      split <;> rfl
    have harrive : Db.arrive ⟨t,[]⟩ (Answers.calm.late j.id) = ⟨t,[]⟩ := rfl
    rw [outcomesWith,List.mapM_cons]
    simp only [harrive,hone,ih]
    cases t.outcome ids j with
    | error e => rfl
    | ok o => cases jobs.mapM (t.outcome ids) <;> rfl

theorem insertJobsWith_calm (jobs : List NewJob) :
    insertJobsWith .calm ⟨t,[]⟩ jobs = ((insertJobs t jobs).1,⟨(insertJobs t jobs).2,[]⟩) := by
  have harrive : Db.arrive ⟨t,[]⟩ Answers.calm.before = ⟨t,[]⟩ := rfl
  have hans : Answers.calm.insert = .answered := rfl
  unfold insertJobsWith insertJobs
  simp only [harrive,hans]
  cases t.insertAll jobs with
  | error e => rfl
  | ok p => exact outcomesWith_calm jobs

theorem ackRowsWith_calm (jobs : List NewJob) : ackRowsWith .calm ⟨t,[]⟩ jobs =
    ((ackRows t (jobs.map fun j => (j,j))).1,⟨(ackRows t (jobs.map fun j => (j,j))).2,[]⟩) := by
  induction jobs generalizing t with
  | nil => rfl
  | cons j jobs ih =>
    have hrow : insertJobsWith (BatchAnswers.calm.row j.id) ⟨t,[]⟩ [j] =
        ((insertJobs t [j]).1,⟨(insertJobs t [j]).2,[]⟩) := insertJobsWith_calm [j]
    simp only [ackRowsWith,hrow,ih,List.map_cons,ackRows]

theorem ackBatchWith_calm (jobs : List NewJob) : ackBatchWith .calm ⟨t,[]⟩ jobs =
    ((ackBatch t (jobs.map fun j => (j,j))).1,⟨(ackBatch t (jobs.map fun j => (j,j))).2,[]⟩) := by
  have hall : insertJobsWith BatchAnswers.calm.batch ⟨t,[]⟩ jobs =
      ((insertJobs t jobs).1,⟨(insertJobs t jobs).2,[]⟩) := insertJobsWith_calm jobs
  have hjobs : (jobs.map fun j => (j,j)).map Prod.fst = jobs := by
    rw [List.map_map]
    exact List.map_id jobs
  have hcallers : (jobs.map fun j => (j,j)).map Prod.snd = jobs := by
    rw [List.map_map]
    exact List.map_id jobs
  unfold ackBatchWith ackBatch
  rw [hall,hjobs,hcallers]
  cases hres : insertJobs t jobs with
  | mk result u =>
    cases result with
    | ok outcomes => rfl
    | error e => exact ackRowsWith_calm jobs

/-- Where everything is answered at once this is the group commit of the batcher. -/
theorem batcherWith_calm (batches : List (List NewJob)) :
    batcherWith [] ⟨t,[]⟩ (batches.map fun jobs => (.calm,jobs)) =
      ((batcher t (batches.map (·.map fun j => (j,j)))).1,
        ⟨(batcher t (batches.map (·.map fun j => (j,j)))).2,[]⟩) := by
  induction batches generalizing t with
  | nil => rfl
  | cons jobs batches ih =>
    simp only [List.map_cons,batcherWith,batcher,ackBatchWith_calm,ih]

end Calm

/-! ## When an error is the truth -/

/-- The SELECTs that are made, as long as none fails, with what runs before each. -/
def OutcomesSpared (past : List JobId) (a : Answers) (inserted : List JobId) :
    Db → List NewJob → Prop
  | _,[] => True
  | db,j :: jobs => db.Spares past (a.late j.id) ∧ (j.id ∈ inserted ∨ a.select j.id = none →
      OutcomesSpared past a inserted (db.arrive (a.late j.id)) jobs)

/-- What runs late during an `insert_jobs` puts in none of the jobs of `past`. -/
def CallSpared (past : List JobId) (a : Answers) (db : Db) (jobs : List NewJob) : Prop :=
  db.Spares past a.before ∧ (a.insert = .answered →
    ∀ p ∈ ((db.arrive a.before).jobs.insertAll jobs).toOption,
      OutcomesSpared past a p.1 ⟨p.2,(db.arrive a.before).pending⟩ jobs)

/-- The statement is answered, and so is the read for each job it skips. -/
def Answers.Complete (a : Answers) (t : Jobs) (jobs : List NewJob) : Prop :=
  a.insert = .answered ∧ ∃ p ∈ (t.insertAll jobs).toOption,
    ∀ j ∈ jobs, j.id ∈ p.1 ∨ a.select j.id = none

/-- A row that is stored already when its turn comes carries a key, and its statements are
answered. -/
def RowSpared (past : List JobId) (a : Answers) (db : Db) (j : NewJob) : Prop :=
  CallSpared past a db [j] ∧ ((db.arrive a.before).jobs.Stored j.id →
    j.idempotencyKey.isSome = true ∧ a.insert = .answered ∧ a.select j.id = none)

/-- Every row of the fallback, in the table it finds; `past` are the jobs whose turn is over. -/
def RowsSpared (f : BatchAnswers) : List JobId → Db → List NewJob → Prop
  | _,_,[] => True
  | past,db,j :: jobs => RowSpared past (f.row j.id) db j ∧
      RowsSpared f (j.id :: past) (insertJobsWith (f.row j.id) db [j]).2 jobs

/-- The batched statement and the reads after it are answered, or the fallback's rows are
spared. -/
def BatchSpared (f : BatchAnswers) (past : List JobId) (db : Db) (jobs : List NewJob) : Prop :=
  CallSpared past f.batch db jobs ∧
    (f.batch.Complete (db.arrive f.batch.before).jobs jobs ∨
      RowsSpared f past (insertJobsWith f.batch db jobs).2 jobs)

def BatchesSpared (last : List Nat) : List JobId → Db → List (BatchAnswers × List NewJob) → Prop
  | past,db,[] => db.Spares past last
  | past,db,(f,jobs) :: rest => BatchSpared f past db jobs ∧
      BatchesSpared last (jobs.map (·.id) ++ past) (ackBatchWith f db jobs).2 rest

section Decide

variable (past : List JobId) (a : Answers) (f : BatchAnswers)

instance OutcomesSpared.decidable (inserted : List JobId) : (db : Db) → (jobs : List NewJob) →
    Decidable (OutcomesSpared past a inserted db jobs)
  | _,[] => .isTrue trivial
  | db,j :: jobs =>
    have := OutcomesSpared.decidable inserted (db.arrive (a.late j.id)) jobs
    inferInstanceAs (Decidable (db.Spares past (a.late j.id) ∧ (j.id ∈ inserted ∨
      a.select j.id = none → OutcomesSpared past a inserted (db.arrive (a.late j.id)) jobs)))

instance (db : Db) (jobs : List NewJob) : Decidable (CallSpared past a db jobs) :=
  inferInstanceAs (Decidable (db.Spares past a.before ∧ (a.insert = .answered →
    ∀ p ∈ ((db.arrive a.before).jobs.insertAll jobs).toOption,
      OutcomesSpared past a p.1 ⟨p.2,(db.arrive a.before).pending⟩ jobs)))

instance (t : Jobs) (jobs : List NewJob) : Decidable (a.Complete t jobs) :=
  inferInstanceAs (Decidable (a.insert = .answered ∧ ∃ p ∈ (t.insertAll jobs).toOption,
    ∀ j ∈ jobs, j.id ∈ p.1 ∨ a.select j.id = none))

instance (db : Db) (j : NewJob) : Decidable (RowSpared past a db j) :=
  inferInstanceAs (Decidable (CallSpared past a db [j] ∧
    ((db.arrive a.before).jobs.Stored j.id →
      j.idempotencyKey.isSome = true ∧ a.insert = .answered ∧ a.select j.id = none)))

instance RowsSpared.decidable : (past : List JobId) → (db : Db) → (jobs : List NewJob) →
    Decidable (RowsSpared f past db jobs)
  | _,_,[] => .isTrue trivial
  | past,db,j :: jobs =>
    have := RowsSpared.decidable (j.id :: past) (insertJobsWith (f.row j.id) db [j]).2 jobs
    inferInstanceAs (Decidable (RowSpared past (f.row j.id) db j ∧
      RowsSpared f (j.id :: past) (insertJobsWith (f.row j.id) db [j]).2 jobs))

instance (db : Db) (jobs : List NewJob) : Decidable (BatchSpared f past db jobs) :=
  inferInstanceAs (Decidable (CallSpared past f.batch db jobs ∧
    (f.batch.Complete (db.arrive f.batch.before).jobs jobs ∨
      RowsSpared f past (insertJobsWith f.batch db jobs).2 jobs)))

instance BatchesSpared.decidable (last : List Nat) : (past : List JobId) → (db : Db) →
    (batches : List (BatchAnswers × List NewJob)) → Decidable (BatchesSpared last past db batches)
  | past,db,[] => inferInstanceAs (Decidable (db.Spares past last))
  | past,db,(f,jobs) :: rest =>
    have := BatchesSpared.decidable last (jobs.map (·.id) ++ past) (ackBatchWith f db jobs).2 rest
    inferInstanceAs (Decidable (BatchSpared f past db jobs ∧
      BatchesSpared last (jobs.map (·.id) ++ past) (ackBatchWith f db jobs).2 rest))

end Decide

/-! ## One call -/

section Call

variable {all : List NewJob} {past : List JobId} {a : Answers} {db : Db} {jobs : List NewJob}
  {j : NewJob} {ids : List JobId}

theorem toOption_eq_some {α ε : Type} {r : Except ε α} {x : α} (h : x ∈ r.toOption) : r = .ok x := by
  cases r with
  | error e => cases h
  | ok y => exact congrArg Except.ok (Option.some.inj h)

theorem returned_effect {t u : Jobs} (h : t.insertAll jobs = .ok (ids,u)) :
    t.returned jobs = ids ∧ t.effect jobs = u := by
  unfold Jobs.returned Jobs.effect
  rw [h]
  exact ⟨rfl,rfl⟩

theorem complete_iff {t u : Jobs} (h : t.insertAll jobs = .ok (ids,u)) : a.Complete t jobs ↔
    a.insert = .answered ∧ ∀ j ∈ jobs, j.id ∈ ids ∨ a.select j.id = none := by
  rw [Answers.Complete,h]
  refine and_congr_right fun _ => ⟨?_,fun hall => ⟨(ids,u),rfl,hall⟩⟩
  rintro ⟨p,hp,hall⟩
  cases hp
  exact hall

/-- The read of a job whose key has an owner finds it, unless the read fails. -/
theorem Jobs.outcomeWith_ok {t : Jobs} (hset : j.id ∈ ids ∨ (t.holder j).isSome) :
    (∃ o, t.outcomeWith a ids j = .ok o) ↔ j.id ∈ ids ∨ a.select j.id = none := by
  unfold Jobs.outcomeWith
  by_cases hin : j.id ∈ ids
  · simp [hin]
  · obtain ⟨row,hrow⟩ := Option.isSome_iff_exists.mp (hset.resolve_left hin)
    obtain ⟨key,hkey,hown⟩ := Option.bind_eq_some_iff.mp hrow
    cases hsel : a.select j.id with
    | some e => simp [hin]
    | none => simp [hin,Jobs.outcome,hkey,hown]

theorem map_error_iff {α β ε : Type} {r : Except ε α} {g : α → β} :
    (∃ e, r.map g = .error e) ↔ ∃ e, r = .error e := by
  cases r with
  | error e => exact ⟨fun _ => ⟨e,rfl⟩,fun _ => ⟨e,rfl⟩⟩
  | ok x =>
    constructor
    · rintro ⟨e,he⟩
      cases he
    · rintro ⟨e,he⟩
      cases he

/-- What the loop over the outcomes does: it fails exactly when a read does, and on the way rows
appear only late. -/
structure OutcomesSpec (all : List NewJob) (past : List JobId) (a : Answers) (inserted : List JobId)
    (db : Db) (jobs : List NewJob) (result : Except StoreError (List InsertOutcome) × Db) : Prop where
  reaches : (ingestDb all).Reaches db result.2
  fails : (∃ e, result.1 = .error e) ↔ ¬ ∀ j ∈ jobs, j.id ∈ inserted ∨ a.select j.id = none
  spared : OutcomesSpared past a inserted db jobs ↔ db.Calm result.2 past

theorem outcomesWith_spec (past : List JobId) (a : Answers)
    (hsole : ∀ j ∈ all, ∀ k ∈ all, k.id = j.id → k = j) (hof : db.Of all)
    (hset : ∀ j ∈ jobs, j.id ∈ ids ∨ (db.jobs.holder j).isSome) :
    OutcomesSpec all past a ids db jobs (outcomesWith a ids db jobs) := by
  induction jobs generalizing db with
  | nil =>
    refine ⟨.refl db,⟨?_,fun h => absurd (fun _ hj => absurd hj List.not_mem_nil) h⟩,
      ⟨fun _ _ _ h => h,fun _ => trivial⟩⟩
    rintro ⟨e,he⟩
    cases he
  | cons j jobs ih =>
    have hlate : (ingestDb all).Reaches db (db.arrive (a.late j.id)) := Db.reaches_arrive db _
    have hof' := hof.reaches hsole hlate
    have hg := hof.grows hsole hlate
    have hset' : ∀ k ∈ j :: jobs, k.id ∈ ids ∨ ((db.arrive (a.late j.id)).jobs.holder k).isSome :=
      fun k hk => (hset k hk).imp_right (hg.holder k)
    have hone := Jobs.outcomeWith_ok (a := a) (hset' j List.mem_cons_self)
    have hrest := ih hof' fun k hk => hset' k (List.mem_cons_of_mem _ hk)
    have hspares := Db.spares_iff hsole hof past (a.late j.id)
    cases hout : (db.arrive (a.late j.id)).jobs.outcomeWith a ids j with
    | error e =>
      -- `?` leaves the loop: the reads after this one are not made
      have heq : outcomesWith a ids db (j :: jobs) = (.error e,db.arrive (a.late j.id)) := by
        simp only [outcomesWith,hout]
      have hno : ¬ (j.id ∈ ids ∨ a.select j.id = none) := by
        rw [← hone,hout]
        rintro ⟨o,ho⟩
        cases ho
      rw [heq]
      refine ⟨hlate,⟨fun _ hall => hno (hall j List.mem_cons_self),fun _ => ⟨e,rfl⟩⟩,?_⟩
      rw [OutcomesSpared,hspares]
      exact and_iff_left fun hyes => absurd hyes hno
    | ok o =>
      have heq : outcomesWith a ids db (j :: jobs) =
          ((outcomesWith a ids (db.arrive (a.late j.id)) jobs).1.map fun outcomes => o :: outcomes,
            (outcomesWith a ids (db.arrive (a.late j.id)) jobs).2) := by
        simp only [outcomesWith,hout]
      have hyes : j.id ∈ ids ∨ a.select j.id = none := hone.mp ⟨o,hout⟩
      rw [heq]
      refine ⟨hlate.trans hrest.reaches,?_,?_⟩
      · rw [map_error_iff,hrest.fails,List.forall_mem_cons,and_iff_right hyes]
      · rw [OutcomesSpared,hspares,Db.calm_trans hg (hof'.grows hsole hrest.reaches),← hrest.spared]
        exact and_congr_right fun _ => ⟨fun h => h hyes,fun h _ => h⟩

/-- What one `insert_jobs` does. -/
structure CallSpec (all : List NewJob) (past : List JobId) (a : Answers) (db : Db)
    (jobs : List NewJob) (result : Except StoreError (List InsertOutcome) × Db) : Prop where
  reaches : (ingestDb all).Reaches db result.2
  fails : (∃ e, result.1 = .error e) ↔ ¬ a.Complete (db.arrive a.before).jobs jobs
  spared : CallSpared past a db jobs ↔ db.Calm result.2 past
  settles : (∀ e, result.1 ≠ .error e) → ∀ j ∈ jobs, result.2.Settled j
  /-- A call that fails was refused, is under way, or had its say before the reads. -/
  stored : (∃ e, result.1 = .error e) → ∀ j, jobs = [j] →
    (result.2.jobs.Stored j.id ↔ (db.arrive a.before).jobs.Stored j.id)

/-- A call that does not get as far as the reads fails, and leaves no row of its own. -/
theorem CallSpec.early (hsole : ∀ j ∈ all, ∀ k ∈ all, k.id = j.id → k = j) (hof : db.Of all)
    {e : StoreError} {db' : Db} (hr : (ingestDb all).Reaches db db')
    (hjobs : db'.jobs = (db.arrive a.before).jobs)
    (hearly : ∀ ids t, ¬ (a.insert = .answered ∧ (db.arrive a.before).jobs.insertAll jobs = .ok (ids,t))) :
    CallSpec all past a db jobs (.error e,db') := by
  refine ⟨hr,⟨fun _ h => ?_,fun _ => ⟨e,rfl⟩⟩,?_,fun h => absurd rfl (h e),fun _ j _ => ?_⟩
  · obtain ⟨hins,p,hp,-⟩ := h
    exact hearly p.1 p.2 ⟨hins,toOption_eq_some hp⟩
  · have hspares := Db.spares_iff hsole hof past a.before
    have hcalm : db.Calm db' past ↔ db.Calm (db.arrive a.before) past := by
      unfold Db.Calm
      rw [hjobs]
    rw [CallSpared,hspares,hcalm]
    exact and_iff_left fun hins p hp => absurd ⟨hins,toOption_eq_some hp⟩ (hearly p.1 p.2)
  · rw [hjobs]

/-- A call whose statement goes through ends with the reads, and the statement's own rows are
those of its jobs. -/
theorem CallSpec.reads (hsole : ∀ j ∈ all, ∀ k ∈ all, k.id = j.id → k = j) (hof : db.Of all)
    (hjobs : jobs ⊆ all) (hpast : ∀ j ∈ jobs, j.id ∉ past) (hins : a.insert = .answered) {t : Jobs}
    (hall : (db.arrive a.before).jobs.insertAll jobs = .ok (ids,t)) :
    CallSpec all past a db jobs (outcomesWith a ids ⟨t,(db.arrive a.before).pending⟩ jobs) := by
  have hlate : (ingestDb all).Reaches db (db.arrive a.before) := Db.reaches_arrive db _
  have hof' := hof.reaches hsole hlate
  have hg := hof.grows hsole hlate
  have hspec := Jobs.insertAll_spec hall
  obtain ⟨hids,ht⟩ := returned_effect hall
  have hinsert : (ingestDb all).Reaches (db.arrive a.before) ⟨t,(db.arrive a.before).pending⟩ :=
    ht ▸ (Machine.Reaches.refl (db.arrive a.before)).tail
      (show (ingestDb all).allowed (db.arrive a.before) (.insert jobs) from hjobs)
  have hof₂ := hof'.reaches hsole hinsert
  have hstored (id : JobId) : t.Stored id ↔ (db.arrive a.before).jobs.Stored id ∨ id ∈ ids := by
    rw [← ht,← hids]
    exact Jobs.stored_effect _ _ _
  have hout := outcomesWith_spec past a hsole hof₂ hspec.settled
  have hsettled : ∀ j ∈ jobs, Db.Settled ⟨t,(db.arrive a.before).pending⟩ j :=
    fun j hj => (hspec.settled j hj).imp_left fun hin => (hstored j.id).mpr (.inr hin)
  have hg₂ := hof₂.grows hsole hout.reaches
  refine ⟨hlate.trans (hinsert.trans hout.reaches),?_,?_,fun _ j hj => hg₂.settles (hsettled j hj),?_⟩
  · rw [hout.fails,complete_iff hall,and_iff_right hins]
  · -- the statement's own rows are not of the past
    have hown : (db.arrive a.before).Calm ⟨t,(db.arrive a.before).pending⟩ past := by
      intro id hid hst
      refine ((hstored id).mp hst).resolve_right fun hin => ?_
      obtain ⟨j,hj,rfl⟩ := Jobs.returned_mem (hids ▸ hin)
      exact hpast j hj hid
    have hreads : (a.insert = .answered →
        ∀ p ∈ ((db.arrive a.before).jobs.insertAll jobs).toOption,
          OutcomesSpared past a p.1 ⟨p.2,(db.arrive a.before).pending⟩ jobs) ↔
            OutcomesSpared past a ids ⟨t,(db.arrive a.before).pending⟩ jobs := by
      rw [hall]
      refine ⟨fun h => h hins (ids,t) rfl,fun h _ p hp => ?_⟩
      cases hp
      exact h
    rw [CallSpared,hreads,hout.spared,Db.spares_iff hsole hof,
      Db.calm_trans hg ((hof'.grows hsole hinsert).trans hg₂),
      Db.calm_trans (hof'.grows hsole hinsert) hg₂,and_iff_right hown]
  · -- a read only fails for a job the statement skipped, and of a skipped job no row comes late
    rintro herr j rfl
    have hnot : j.id ∉ ids := by
      intro hin
      refine hout.fails.mp herr fun k hk => ?_
      rw [List.mem_singleton.mp hk]
      exact Or.inl hin
    have hsame : t.Stored j.id ↔ (db.arrive a.before).jobs.Stored j.id :=
      (hstored j.id).trans (or_iff_left hnot)
    refine Iff.trans ⟨fun hst => ?_,hg₂.stored j.id⟩ hsame
    exact hg₂.settled j (hjobs List.mem_cons_self) (hsettled j List.mem_cons_self) hst

theorem insertJobsWith_spec (hsole : ∀ j ∈ all, ∀ k ∈ all, k.id = j.id → k = j) (hof : db.Of all)
    (hjobs : jobs ⊆ all) (hpast : ∀ j ∈ jobs, j.id ∉ past) :
    CallSpec all past a db jobs (insertJobsWith a db jobs) := by
  have hlate : (ingestDb all).Reaches db (db.arrive a.before) := Db.reaches_arrive db _
  cases hins : a.insert with
  | refused e =>
    have heq : insertJobsWith a db jobs = (.error e,db.arrive a.before) := by
      simp only [insertJobsWith,hins]
    rw [heq]
    exact .early hsole hof hlate rfl (by simp [hins])
  | lost e =>
    have heq : insertJobsWith a db jobs =
        (.error e.val,(ingestDb all).step (db.arrive a.before) (.lose jobs)) := by
      simp only [insertJobsWith,hins]
      rfl
    rw [heq]
    exact .early hsole hof (hlate.tail hjobs) rfl (by simp [hins])
  | answered =>
    cases hall : (db.arrive a.before).jobs.insertAll jobs with
    | error e =>
      have heq : insertJobsWith a db jobs = (.error e,db.arrive a.before) := by
        simp only [insertJobsWith,hins,hall]
      rw [heq]
      exact .early hsole hof hlate rfl (by simp [hall])
    | ok p =>
      obtain ⟨ids,t⟩ := p
      have heq : insertJobsWith a db jobs =
          outcomesWith a ids ⟨t,(db.arrive a.before).pending⟩ jobs := by
        simp only [insertJobsWith,hins,hall]
      rw [heq]
      exact .reads hsole hof hjobs hpast hins hall

end Call

/-! ## Rows, batches, runs -/

section Truth

variable {all : List NewJob} {past : List JobId} {f : BatchAnswers} {a : Answers} {db : Db}
  {jobs : List NewJob} {j : NewJob}

/-- The statements for a stored row go through exactly when it carries a key and all are answered. -/
theorem complete_stored {t : Jobs} (hkey : ∀ r ∈ t.table.rows, r.job.id = j.id →
    r.idempotencyKey = j.idempotencyKey) (hs : t.Stored j.id) : a.Complete t [j] ↔
      j.idempotencyKey.isSome = true ∧ a.insert = .answered ∧ a.select j.id = none := by
  have hheld : (t.holder j).isSome = j.idempotencyKey.isSome := by
    obtain ⟨r,hr,hid⟩ := hs
    have hk := hkey r hr hid
    unfold Jobs.holder
    cases hj : j.idempotencyKey with
    | none => rfl
    | some key =>
      rw [Option.bind_some,Jobs.ownerOf,Option.isSome_some,List.find?_isSome]
      exact ⟨r,hr,by simp [hk,hj]⟩
  obtain ⟨hh,u,hu,-⟩ | ⟨hh,-,herr⟩ | ⟨-,hno,-⟩ := t.insertRow_cases j
  · have hall : t.insertAll [j] = .ok ([],u) := by simp [Jobs.insertAll,hu]
    rw [complete_iff hall,← hheld,hh]
    simp
  · have hall : t.insertAll [j] = .error .uniqueViolation := by simp [Jobs.insertAll,herr]
    rw [← hheld,hh]
    refine ⟨?_,fun h => absurd h.1 Bool.false_ne_true⟩
    rintro ⟨-,p,hp,-⟩
    rw [hall] at hp
    cases hp
  · exact absurd hs hno

/-- The callers of some jobs are told the truth, and no row of an earlier job appears. -/
def KeepsWord (past : List JobId) (db : Db) (acks : List (NewJob × Except StoreError InsertOutcome))
    (db' : Db) : Prop :=
  Truthful acks db'.jobs ∧ db.Calm db' past

/-- One row of the fallback. -/
theorem row_truthful (hsole : ∀ j ∈ all, ∀ k ∈ all, k.id = j.id → k = j) (hof : db.Of all)
    (hj : j ∈ all) (hpast : j.id ∉ past) :
    RowSpared past a db j ↔ ((∃ e, (insertJobsWith a db [j]).1 = .error e) →
      ¬ (insertJobsWith a db [j]).2.jobs.Stored j.id) ∧ db.Calm (insertJobsWith a db [j]).2 past := by
  have hcall : CallSpec all past a db [j] (insertJobsWith a db [j]) :=
    insertJobsWith_spec hsole hof (List.cons_subset.mpr ⟨hj,List.nil_subset _⟩) fun k hk =>
      List.mem_singleton.mp hk ▸ hpast
  have hof' := hof.reaches hsole (Db.reaches_arrive db a.before)
  have hkey := fun r hr hid => hof'.rows r hr j hj hid
  rw [RowSpared,hcall.spared,and_comm]
  refine and_congr_left fun _ => ⟨fun h herr hst => ?_,fun h hst => ?_⟩
  · have hst' := (hcall.stored herr j rfl).mp hst
    exact hcall.fails.mp herr ((complete_stored hkey hst').mpr (h hst'))
  · rw [← complete_stored hkey hst]
    by_contra hno
    have herr := hcall.fails.mpr hno
    exact h herr ((hcall.stored herr j rfl).mpr hst)

/-- What the turns of some jobs do: whoever is told of an outcome has a settled job. -/
structure TurnSpec (all : List NewJob) (db : Db) (jobs : List NewJob)
    (result : List (NewJob × Except StoreError InsertOutcome) × Db) : Prop where
  reaches : (ingestDb all).Reaches db result.2
  own : ∀ j r, (j,r) ∈ result.1 → j ∈ jobs
  told : ∀ j ∈ jobs, result.2.Settled j ∨ ∃ e, (j,.error e) ∈ result.1

/-- The turns of some jobs and then those of others. -/
theorem keepsWord_append {db₁ db₂ : Db} {acks more : List (NewJob × Except StoreError InsertOutcome)}
    (hsole : ∀ j ∈ all, ∀ k ∈ all, k.id = j.id → k = j) (hof : db.Of all) (hjobs : jobs ⊆ all)
    (h : TurnSpec all db jobs (acks,db₁)) (h' : (ingestDb all).Reaches db₁ db₂) :
    KeepsWord past db (acks ++ more) db₂ ↔ KeepsWord past db acks db₁ ∧
      KeepsWord (jobs.map (·.id) ++ past) db₁ more db₂ := by
  have hg := hof.grows hsole h.reaches
  have hg' := (hof.reaches hsole h.reaches).grows hsole h'
  unfold KeepsWord
  rw [Db.calm_trans hg hg']
  constructor
  · rintro ⟨htrue,hc,hc'⟩
    refine ⟨⟨fun j e hj hst => htrue j e (List.mem_append_left _ hj) (hg'.stored j.id hst),hc⟩,
      fun j e hj => htrue j e (List.mem_append_right _ hj),fun id hid hst => ?_⟩
    rcases List.mem_append.mp hid with hid | hid
    · -- told of an outcome, its key has an owner; told of an error, it is not stored at the end
      obtain ⟨j,hj,rfl⟩ := List.mem_map.mp hid
      rcases h.told j hj with hset | ⟨e,he⟩
      · exact hg'.settled j (hjobs hj) hset hst
      · exact absurd hst (htrue j e (List.mem_append_left _ he))
    · exact hc' id hid hst
  · rintro ⟨⟨htrue,hc⟩,hmore,hc'⟩
    refine ⟨fun j e hj hst => ?_,hc,fun id hid => hc' id (List.mem_append_right _ hid)⟩
    rcases List.mem_append.mp hj with hj | hj
    · refine htrue j e hj (hc' j.id ?_ hst)
      exact List.mem_append_left _ (List.mem_map_of_mem (h.own j _ hj))
    · exact hmore j e hj hst

theorem TurnSpec.append {more : List NewJob} {db₁ db₂ : Db}
    {acks rest : List (NewJob × Except StoreError InsertOutcome)}
    (hsole : ∀ j ∈ all, ∀ k ∈ all, k.id = j.id → k = j) (hof : db.Of all)
    (h : TurnSpec all db jobs (acks,db₁)) (h' : TurnSpec all db₁ more (rest,db₂)) :
    TurnSpec all db (jobs ++ more) (acks ++ rest,db₂) := by
  have hg := (hof.reaches hsole h.reaches).grows hsole h'.reaches
  refine ⟨h.reaches.trans h'.reaches,fun j r hj => ?_,fun j hj => ?_⟩
  · exact List.mem_append.mpr ((List.mem_append.mp hj).imp (h.own j r) (h'.own j r))
  · rcases List.mem_append.mp hj with hj | hj
    · exact (h.told j hj).imp hg.settles fun ⟨e,he⟩ => ⟨e,List.mem_append_left _ he⟩
    · exact (h'.told j hj).imp_right fun ⟨e,he⟩ => ⟨e,List.mem_append_right _ he⟩

/-- The turn of one row of the fallback. -/
theorem row_turn (a : Answers) (hsole : ∀ j ∈ all, ∀ k ∈ all, k.id = j.id → k = j)
    (hof : db.Of all) (hj : j ∈ all) : TurnSpec all db [j]
      ([(j,(insertJobsWith a db [j]).1.map fun o => o.headD .created)],(insertJobsWith a db [j]).2) := by
  have hcall : CallSpec all [] a db [j] (insertJobsWith a db [j]) :=
    insertJobsWith_spec hsole hof (List.cons_subset.mpr ⟨hj,List.nil_subset _⟩) fun _ _ =>
      List.not_mem_nil
  refine ⟨hcall.reaches,fun k r hk => ?_,fun k hk => ?_⟩
  · exact List.mem_singleton.mpr (congrArg Prod.fst (List.mem_singleton.mp hk))
  · by_cases herr : ∃ e, (insertJobsWith a db [j]).1 = .error e
    · obtain ⟨e,he⟩ := herr
      refine Or.inr ⟨e,List.mem_singleton.mpr ?_⟩
      rw [he,List.mem_singleton.mp hk]
      rfl
    · exact Or.inl (hcall.settles (fun e he => herr ⟨e,he⟩) k hk)

theorem ackRowsWith_turn (f : BatchAnswers) (hsole : ∀ j ∈ all, ∀ k ∈ all, k.id = j.id → k = j)
    (hof : db.Of all) (hjobs : jobs ⊆ all) : TurnSpec all db jobs (ackRowsWith f db jobs) := by
  induction jobs generalizing db with
  | nil => exact ⟨.refl db,fun _ _ h => absurd h List.not_mem_nil,fun _ h => absurd h List.not_mem_nil⟩
  | cons j jobs ih =>
    obtain ⟨hj,hjobs⟩ := List.cons_subset.mp hjobs
    have hrow := row_turn (f.row j.id) hsole hof hj
    exact hrow.append hsole hof (ih (hof.reaches hsole hrow.reaches) hjobs)

/-- A row is told the truth exactly when it is spared. -/
theorem row_keepsWord (hsole : ∀ j ∈ all, ∀ k ∈ all, k.id = j.id → k = j) (hof : db.Of all)
    (hj : j ∈ all) (hpast : j.id ∉ past) : RowSpared past a db j ↔
      KeepsWord past db [(j,(insertJobsWith a db [j]).1.map fun o => o.headD .created)]
        (insertJobsWith a db [j]).2 := by
  rw [row_truthful hsole hof hj hpast,KeepsWord]
  refine and_congr_left fun _ => ⟨fun h k e hk => ?_,fun h herr => ?_⟩
  · have hpair := List.mem_singleton.mp hk
    have hkj : k = j := congrArg Prod.fst hpair
    rw [hkj]
    exact h (map_error_iff.mp ⟨e,(congrArg Prod.snd hpair).symm⟩)
  · obtain ⟨e,he⟩ := herr
    refine h j e (List.mem_singleton.mpr ?_)
    rw [he]
    rfl

/-- The fallback: one row keeps what the others were told. -/
theorem rows_truthful (hsole : ∀ j ∈ all, ∀ k ∈ all, k.id = j.id → k = j) (hof : db.Of all)
    (hjobs : jobs ⊆ all) (hn : (jobs.map (·.id)).Nodup) (hpast : ∀ j ∈ jobs, j.id ∉ past) :
    RowsSpared f past db jobs ↔
      KeepsWord past db (ackRowsWith f db jobs).1 (ackRowsWith f db jobs).2 := by
  induction jobs generalizing db past with
  | nil => exact ⟨fun _ => ⟨fun _ _ h => absurd h List.not_mem_nil,fun _ _ h => h⟩,fun _ => trivial⟩
  | cons j jobs ih =>
    obtain ⟨hj,hjobs⟩ := List.cons_subset.mp hjobs
    obtain ⟨hnot,hn⟩ := List.nodup_cons.mp hn
    have hrow := row_turn (f.row j.id) hsole hof hj
    have hof' := hof.reaches hsole hrow.reaches
    have hpast' : ∀ k ∈ jobs, k.id ∉ j.id :: past := by
      intro k hk hmem
      rcases List.mem_cons.mp hmem with hid | hmem
      · exact hnot (List.mem_map.mpr ⟨k,hk,hid⟩)
      · exact hpast k (List.mem_cons_of_mem _ hk) hmem
    rw [RowsSpared,row_keepsWord hsole hof hj (hpast j List.mem_cons_self),ih hof' hjobs hn hpast']
    exact (keepsWord_append hsole hof (List.cons_subset.mpr ⟨hj,List.nil_subset _⟩) hrow
      (ackRowsWith_turn f hsole hof' hjobs).reaches).symm

theorem ackBatchWith_turn (f : BatchAnswers) (hsole : ∀ j ∈ all, ∀ k ∈ all, k.id = j.id → k = j)
    (hof : db.Of all) (hjobs : jobs ⊆ all) : TurnSpec all db jobs (ackBatchWith f db jobs) := by
  have hcall : CallSpec all [] f.batch db jobs (insertJobsWith f.batch db jobs) :=
    insertJobsWith_spec hsole hof hjobs fun _ _ => List.not_mem_nil
  unfold ackBatchWith
  split
  · next outcomes db' heq =>
    rw [heq] at hcall
    refine ⟨hcall.reaches,fun j r hj => (List.of_mem_zip hj).1,fun j hj => Or.inl ?_⟩
    exact hcall.settles (fun e he => by cases he) j hj
  · next e db' heq =>
    rw [heq] at hcall
    obtain ⟨hreach,hown,htold⟩ := ackRowsWith_turn f hsole (hof.reaches hsole hcall.reaches) hjobs
    exact ⟨hcall.reaches.trans hreach,hown,htold⟩

/-- A batch that goes through answers nobody with an error; else the fallback decides. -/
theorem batch_truthful (hsole : ∀ j ∈ all, ∀ k ∈ all, k.id = j.id → k = j) (hof : db.Of all)
    (hjobs : jobs ⊆ all) (hn : (jobs.map (·.id)).Nodup) (hpast : ∀ j ∈ jobs, j.id ∉ past) :
    BatchSpared f past db jobs ↔
      KeepsWord past db (ackBatchWith f db jobs).1 (ackBatchWith f db jobs).2 := by
  have hcall : CallSpec all past f.batch db jobs (insertJobsWith f.batch db jobs) :=
    insertJobsWith_spec hsole hof hjobs hpast
  have hof' := hof.reaches hsole hcall.reaches
  have hg := hof.grows hsole hcall.reaches
  have hfails := hcall.fails
  rw [BatchSpared,hcall.spared]
  unfold ackBatchWith
  cases hres : insertJobsWith f.batch db jobs with
  | mk result db' =>
    rw [hres] at hfails hof' hg
    cases result with
    | ok outcomes =>
      have hcomplete : f.batch.Complete (db.arrive f.batch.before).jobs jobs := by
        by_contra hno
        obtain ⟨e,he⟩ := hfails.mpr hno
        cases he
      have hquiet : Truthful (jobs.zip (outcomes.map Except.ok)) db'.jobs := by
        intro j e hj
        obtain ⟨o,-,ho⟩ := List.mem_map.mp (List.of_mem_zip hj).2
        cases ho
      exact ⟨fun h => ⟨hquiet,h.1⟩,fun h => ⟨h.2,Or.inl hcomplete⟩⟩
    | error e =>
      have hno := hfails.mp ⟨e,rfl⟩
      have hrows := ackRowsWith_turn f hsole hof' hjobs
      dsimp only
      rw [or_iff_right hno,rows_truthful hsole hof' hjobs hn hpast,KeepsWord,KeepsWord,
        Db.calm_trans hg (hof'.grows hsole hrows.reaches)]
      exact and_left_comm

theorem batcherWith_reaches (last : List Nat)
    (hsole : ∀ j ∈ all, ∀ k ∈ all, k.id = j.id → k = j) (hof : db.Of all)
    {batches : List (BatchAnswers × List NewJob)} (hjobs : (batches.map (·.2)).flatten ⊆ all) :
    (ingestDb all).Reaches db (batcherWith last db batches).2 := by
  induction batches generalizing db with
  | nil => exact Db.reaches_arrive db last
  | cons b batches ih =>
    obtain ⟨hb,hrest⟩ := List.append_subset.mp hjobs
    have hturn := ackBatchWith_turn b.1 hsole hof hb
    exact hturn.reaches.trans (ih (hof.reaches hsole hturn.reaches) hrest)

theorem batches_truthful (last : List Nat) (hsole : ∀ j ∈ all, ∀ k ∈ all, k.id = j.id → k = j)
    (hof : db.Of all) {batches : List (BatchAnswers × List NewJob)}
    (hjobs : (batches.map (·.2)).flatten ⊆ all)
    (hn : ((batches.map (·.2)).flatten.map (·.id)).Nodup)
    (hpast : ∀ j ∈ (batches.map (·.2)).flatten, j.id ∉ past) :
    BatchesSpared last past db batches ↔
      KeepsWord past db (batcherWith last db batches).1 (batcherWith last db batches).2 := by
  induction batches generalizing db past with
  | nil =>
    rw [BatchesSpared,Db.spares_iff hsole hof]
    exact (and_iff_right fun _ _ h => absurd h List.not_mem_nil).symm
  | cons b batches ih =>
    obtain ⟨f,jobs⟩ := b
    rw [List.map_cons,List.flatten_cons] at hjobs hn hpast
    rw [List.map_append,List.nodup_append] at hn
    obtain ⟨hb,hrest⟩ := List.append_subset.mp hjobs
    have hturn := ackBatchWith_turn f hsole hof hb
    have hof' := hof.reaches hsole hturn.reaches
    have hpast' : ∀ k ∈ (batches.map (·.2)).flatten, k.id ∉ jobs.map (·.id) ++ past := by
      intro k hk hmem
      rcases List.mem_append.mp hmem with hmem | hmem
      · exact hn.2.2 k.id hmem k.id (List.mem_map_of_mem hk) rfl
      · exact hpast k (List.mem_append_right _ hk) hmem
    rw [BatchesSpared,batch_truthful hsole hof hb hn.1 fun k hk => hpast k (List.mem_append_left _ hk),
      ih hof' hrest hn.2.1 hpast']
    exact (keepsWord_append hsole hof hb hturn (batcherWith_reaches last hsole hof' hrest)).symm

end Truth

/-- Over every run of the batcher: a job that was answered with an error is not stored, then
or later, exactly when every batch was spared. -/
theorem ingest_error_iff (t : Jobs) (batches : List (BatchAnswers × List NewJob)) (last : List Nat)
    (h : t.Fresh (batches.map (·.2)).flatten) :
    Truthful (batcherWith last ⟨t,[]⟩ batches).1 (batcherWith last ⟨t,[]⟩ batches).2.jobs ↔
      BatchesSpared last [] ⟨t,[]⟩ batches := by
  have hsole : ∀ j ∈ (batches.map (·.2)).flatten, ∀ k ∈ (batches.map (·.2)).flatten,
      k.id = j.id → k = j := fun j hj k hk hid => List.inj_on_of_nodup_map h.nodup hk hj hid
  have hof : Db.Of (batches.map (·.2)).flatten ⟨t,[]⟩ :=
    ⟨fun r hr j hj hid => absurd hid (h.new j hj r hr),fun _ hs => absurd hs List.not_mem_nil⟩
  rw [batches_truthful last hsole hof (List.Subset.refl _) h.nodup fun _ _ => List.not_mem_nil]
  exact (and_iff_left fun _ hid => absurd hid List.not_mem_nil).symm

namespace Sample

/-- The answer to the batched INSERT is lost; it runs before the fallback's. -/
def lostBatch : BatchAnswers where
  batch := { Answers.calm with insert := .lost ⟨.db .io,StoreError.io_transient⟩ }
  row _ := { Answers.calm with before := [0] }

/-- The fallback is refused. -/
def refusedRows : BatchAnswers where
  batch := { Answers.calm with insert := .lost ⟨.db .io,StoreError.io_transient⟩ }
  row _ := { Answers.calm with insert := .refused (.db .io) }

def keyless : NewJob := ⟨1,request,none,"a"⟩

def keyed : NewJob := ⟨2,request,some "k","a"⟩

end Sample

/-- The fallback meets the row of the batch, and the caller is told to come back later. -/
theorem keyless_job_stored :
    ¬ Truthful (batcherWith [] ⟨Sample.noJobs,[]⟩ [(Sample.lostBatch,[Sample.keyless])]).1
      (batcherWith [] ⟨Sample.noJobs,[]⟩ [(Sample.lostBatch,[Sample.keyless])]).2.jobs := by
  intro h
  exact h Sample.keyless .uniqueViolation (List.mem_singleton.mpr rfl) (by decide)

/-- Key or not, the batched INSERT may run once the caller has been told that the job is not stored. -/
example :
    ¬ Truthful (batcherWith [0] ⟨Sample.noJobs,[]⟩ [(Sample.refusedRows,[Sample.keyed])]).1
      (batcherWith [0] ⟨Sample.noJobs,[]⟩ [(Sample.refusedRows,[Sample.keyed])]).2.jobs := by
  intro h
  exact h Sample.keyed (.db .io) (List.mem_singleton.mpr rfl) (by decide)

/-- With a key the fallback finds the job it has stored. -/
theorem keyed_job_told :
    Sample.noJobs.Fresh [Sample.keyed] ∧
      Truthful (batcherWith [] ⟨Sample.noJobs,[]⟩ [(Sample.lostBatch,[Sample.keyed])]).1
        (batcherWith [] ⟨Sample.noJobs,[]⟩ [(Sample.lostBatch,[Sample.keyed])]).2.jobs := by
  have hf : Sample.noJobs.Fresh [Sample.keyed] :=
    ⟨fun _ _ r hr => (List.not_mem_nil hr).elim,by decide⟩
  exact ⟨hf,(ingest_error_iff Sample.noJobs [(Sample.lostBatch,[Sample.keyed])] [] hf).mpr
    (by decide)⟩

end GumEngine
