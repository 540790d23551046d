import GumEngine.Ingest.Batch
import GumEngine.Transition.Machine

/-!
# INSERTs under way

An INSERT whose answer is lost runs at once, at any later time, or never. Whenever that is, it adds no
row to a key that has an owner, and none with an id that is taken.
-/

namespace GumEngine
open Relational Transition

/-- A row with this id is in the table. -/
def Jobs.Stored (t : Jobs) (id : JobId) : Prop := ∃ r ∈ t.table.rows, r.job.id = id

instance (t : Jobs) (id : JobId) : Decidable (t.Stored id) :=
  inferInstanceAs (Decidable (∃ r ∈ t.table.rows, r.job.id = id))

/-- The ids that the statement returns. -/
def Jobs.returned (t : Jobs) (s : List NewJob) : List JobId :=
  match t.insertAll s with
  | .ok (ids,_) => ids
  | .error _ => []

/-- The table after the statement, whoever is told. -/
def Jobs.effect (t : Jobs) (s : List NewJob) : Jobs :=
  match t.insertAll s with
  | .ok (_,t) => t
  | .error _ => t

/-- The table, and the INSERTs that have not run although their callers gave up on them. -/
structure Db where
  jobs : Jobs
  pending : List (List NewJob)

namespace Db

def run (db : Db) (i : Nat) : Db :=
  match db.pending[i]? with
  | none => db
  | some s => ⟨db.jobs.effect s,db.pending.eraseIdx i⟩

def arrive (db : Db) (is : List Nat) : Db := is.foldl run db

/-- Of the INSERTs that run late, none puts in a job of `past`. -/
def Spares (past : List JobId) : Db → List Nat → Prop
  | _,[] => True
  | db,i :: is => (∀ s ∈ db.pending[i]?, ∀ id ∈ db.jobs.returned s, id ∉ past) ∧
      Spares past (db.run i) is

instance Spares.decidable (past : List JobId) : (db : Db) → (is : List Nat) →
    Decidable (db.Spares past is)
  | _,[] => .isTrue trivial
  | db,i :: is =>
    have := Spares.decidable past (db.run i) is
    inferInstanceAs (Decidable ((∀ s ∈ db.pending[i]?, ∀ id ∈ db.jobs.returned s, id ∉ past) ∧
      Spares past (db.run i) is))

end Db

/-! ## One statement -/

section Statement

variable {t t' u : Jobs} {j : NewJob} {s : List NewJob} {ids : List JobId} {id : JobId}

theorem Jobs.insertRow_cases (t : Jobs) (j : NewJob) :
    ((t.holder j).isSome ∧ ∃ u, t.insertRow j = .ok (false,u) ∧ u.table = t.table) ∨
    (t.holder j = none ∧ t.Stored j.id ∧ t.insertRow j = .error .uniqueViolation) ∨
    (t.holder j = none ∧ ¬ t.Stored j.id ∧ ∃ u, t.insertRow j = .ok (true,u) ∧
      u.table.rows = t.table.rows ++ [.ofNew t.nextSeq j]) := by
  unfold Jobs.insertRow
  cases hh : t.holder j with
  | some row => exact Or.inl ⟨rfl,_,rfl,rfl⟩
  | none =>
    right
    by_cases hs : t.Stored j.id
    · left
      obtain ⟨r,hr,hid⟩ := hs
      have hclash : t.table.insert (.ofNew t.nextSeq j) = none := by
        rw [Table.insert,dif_neg]
        exact fun hno => hno r hr (Or.inl hid)
      exact ⟨rfl,⟨r,hr,hid⟩,by simp [hclash]⟩
    · right
      have hf : ∀ r ∈ t.table.rows, r.job.id ≠ j.id := fun r hr hid => hs ⟨r,hr,hid⟩
      obtain ⟨table,hi,hrows⟩ := Jobs.insert_some hh hf
      exact ⟨rfl,hs,⟨table,t.nextSeq+1⟩,by simp [hi],hrows⟩

theorem insertAll_cons (h : t.insertAll (j :: s) = .ok (ids,t')) :
    ∃ new u ids', t.insertRow j = .ok (new,u) ∧ u.insertAll s = .ok (ids',t') ∧
      ids = if new then j.id :: ids' else ids' := by
  cases hrow : t.insertRow j with
  | error e =>
    simp only [Jobs.insertAll,hrow] at h
    cases h
  | ok p =>
    obtain ⟨new,u⟩ := p
    cases hall : u.insertAll s with
    | error e =>
      simp only [Jobs.insertAll,hrow,hall] at h
      cases h
    | ok q =>
      obtain ⟨ids',t''⟩ := q
      simp only [Jobs.insertAll,hrow,hall,Except.ok.injEq,Prod.mk.injEq] at h
      obtain ⟨hids,rfl⟩ := h
      exact ⟨new,u,ids',rfl,hall,hids.symm⟩

/-- A key keeps its owner while rows are appended. -/
theorem Jobs.holder_append {new : List IngestRow} (hrows : u.table.rows = t.table.rows ++ new)
    (hh : (t.holder j).isSome) : (u.holder j).isSome := by
  obtain ⟨row,hrow⟩ := Option.isSome_iff_exists.mp hh
  obtain ⟨key,hkey,hown⟩ := Option.bind_eq_some_iff.mp hrow
  rw [Jobs.holder,hkey,Option.bind_some,Jobs.ownerOf,hrows,List.find?_append,
    show t.table.rows.find? _ = some row from hown]
  rfl

/-- What a statement that goes through does. -/
structure Jobs.Inserts (t : Jobs) (s : List NewJob) (ids : List JobId) (t' : Jobs) : Prop where
  rows : ∃ new, t'.table.rows = t.table.rows ++ new ∧ (∀ r ∈ new, ∃ j ∈ s, r = .ofNew r.seq j) ∧
    ∀ id, id ∈ ids ↔ ∃ r ∈ new, r.job.id = id
  fresh : ∀ id ∈ ids, ¬ t.Stored id
  settled : ∀ j ∈ s, j.id ∈ ids ∨ (t'.holder j).isSome
  held : ∀ j, (t.holder j).isSome → (∀ k ∈ s, k.id = j.id → k = j) → j.id ∉ ids

theorem Jobs.insertAll_spec (h : t.insertAll s = .ok (ids,t')) : t.Inserts s ids t' := by
  induction s generalizing t ids with
  | nil =>
    cases h
    refine ⟨⟨[],(List.append_nil _).symm,fun _ hr => absurd hr List.not_mem_nil,fun id => ?_⟩,
      fun _ hi => absurd hi List.not_mem_nil,fun _ hj => absurd hj List.not_mem_nil,
      fun _ _ _ => List.not_mem_nil⟩
    simp
  | cons j s ih =>
    obtain ⟨isNew,u,ids',hu,hall,rfl⟩ := insertAll_cons h
    obtain ⟨⟨new,hnew,hof,hids⟩,hfresh,hsettled,hheld⟩ := ih hall
    have hof' : ∀ r ∈ new, ∃ k ∈ j :: s, r = .ofNew r.seq k := by
      intro r hr
      obtain ⟨k,hk,hr⟩ := hof r hr
      exact ⟨k,List.mem_cons_of_mem _ hk,hr⟩
    obtain ⟨hh,u',hu',htab⟩ | ⟨-,-,herr⟩ | ⟨hh,hs,u',hu',hrows⟩ := t.insertRow_cases j
    · -- skipped: the key has an owner
      cases hu.symm.trans hu'
      have hsame : u.table.rows = t.table.rows ++ [] := by rw [htab,List.append_nil]
      have hto : t'.table.rows = t.table.rows ++ new := by rw [hnew,htab]
      refine ⟨⟨new,hto,hof',hids⟩,fun id hid => ?_,fun k hk => ?_,fun k hk hsole => ?_⟩
      · have hno := hfresh id hid
        rwa [Jobs.Stored,htab] at hno
      · rcases List.mem_cons.mp hk with rfl | hk
        · exact Or.inr (Jobs.holder_append hto hh)
        · exact hsettled k hk
      · exact hheld k (Jobs.holder_append hsame hk) fun i hi => hsole i (List.mem_cons_of_mem _ hi)
    · cases hu.symm.trans herr
    · -- a new row, under an id that was not stored
      cases hu.symm.trans hu'
      refine ⟨⟨.ofNew t.nextSeq j :: new,?_,fun r hr => ?_,fun id => ?_⟩,fun id hid => ?_,
        fun k hk => ?_,fun k hk hsole => ?_⟩
      · rw [hnew,hrows,List.append_assoc,List.singleton_append]
      · rcases List.mem_cons.mp hr with rfl | hr
        · exact ⟨j,List.mem_cons_self,rfl⟩
        · exact hof' r hr
      · rw [if_pos rfl,List.mem_cons,hids id,List.exists_mem_cons_iff]
        exact or_congr_left eq_comm
      · rcases List.mem_cons.mp hid with rfl | hid
        · exact hs
        · rintro ⟨r,hr,hrid⟩
          exact hfresh id hid ⟨r,by rw [hrows]; exact List.mem_append_left _ hr,hrid⟩
      · rcases List.mem_cons.mp hk with rfl | hk
        · exact Or.inl List.mem_cons_self
        · exact (hsettled k hk).imp_left (List.mem_cons_of_mem _)
      · rintro hid
        rcases List.mem_cons.mp hid with hid | hid
        · obtain rfl := hsole j List.mem_cons_self hid.symm
          rw [hh] at hk
          cases hk
        · exact hheld k (Jobs.holder_append hrows hk)
            (fun i hi => hsole i (List.mem_cons_of_mem _ hi)) hid

/-- A statement that fails changes nothing. -/
theorem Jobs.effect_spec (t : Jobs) (s : List NewJob) :
    t.insertAll s = .ok (t.returned s,t.effect s) ∨
      (∃ e, t.insertAll s = .error e) ∧ t.returned s = [] ∧ t.effect s = t := by
  unfold Jobs.returned Jobs.effect
  cases h : t.insertAll s with
  | ok p => exact Or.inl rfl
  | error e => exact Or.inr ⟨⟨e,rfl⟩,rfl,rfl⟩

theorem Jobs.effect_rows (t : Jobs) (s : List NewJob) :
    ∃ new, (t.effect s).table.rows = t.table.rows ++ new ∧
      (∀ r ∈ new, ∃ j ∈ s, r = .ofNew r.seq j) ∧
        ∀ id, id ∈ t.returned s ↔ ∃ r ∈ new, r.job.id = id := by
  obtain h | ⟨-,hids,htab⟩ := t.effect_spec s
  · exact (Jobs.insertAll_spec h).rows
  · refine ⟨[],by rw [htab,List.append_nil],fun _ hr => absurd hr List.not_mem_nil,fun id => ?_⟩
    simp [hids]

theorem Jobs.stored_effect (t : Jobs) (s : List NewJob) (id : JobId) :
    (t.effect s).Stored id ↔ t.Stored id ∨ id ∈ t.returned s := by
  obtain ⟨new,hrows,-,hids⟩ := t.effect_rows s
  rw [hids id,Jobs.Stored,hrows]
  constructor
  · rintro ⟨r,hr,hid⟩
    exact (List.mem_append.mp hr).imp (fun hr => ⟨r,hr,hid⟩) fun hr => ⟨r,hr,hid⟩
  · rintro (⟨r,hr,hid⟩ | ⟨r,hr,hid⟩)
    · exact ⟨r,List.mem_append_left _ hr,hid⟩
    · exact ⟨r,List.mem_append_right _ hr,hid⟩

theorem Jobs.returned_fresh (h : id ∈ t.returned s) : ¬ t.Stored id := by
  obtain hok | ⟨-,hids,-⟩ := t.effect_spec s
  · exact (Jobs.insertAll_spec hok).fresh id h
  · rw [hids] at h
    cases h

theorem Jobs.returned_mem (h : id ∈ t.returned s) : ∃ j ∈ s, j.id = id := by
  obtain ⟨new,-,hof,hids⟩ := t.effect_rows s
  obtain ⟨r,hr,rfl⟩ := (hids id).mp h
  obtain ⟨j,hj,hrj⟩ := hof r hr
  exact ⟨j,hj,by rw [hrj]; rfl⟩

theorem Jobs.not_returned (hh : (t.holder j).isSome) (hsole : ∀ k ∈ s, k.id = j.id → k = j) :
    j.id ∉ t.returned s := by
  obtain hok | ⟨-,hids,-⟩ := t.effect_spec s
  · exact (Jobs.insertAll_spec hok).held j hh hsole
  · rw [hids]
    exact List.not_mem_nil

end Statement

/-! ## Whatever runs -/

/-- What can happen to the table while the jobs of `all` are written. -/
inductive DbEvent
  | late (i : Nat)
  | insert (s : List NewJob)
  | lose (s : List NewJob)

def ingestDb (all : List NewJob) : Machine Db DbEvent where
  allowed _
    | .late _ => True
    | .insert s | .lose s => s ⊆ all
  step db
    | .late i => db.run i
    | .insert s => { db with jobs := db.jobs.effect s }
    | .lose s => { db with pending := db.pending ++ [s] }

/-- The rows and the statements under way that carry an id of `all` are of the job of that id. -/
structure Db.Of (all : List NewJob) (db : Db) : Prop where
  rows : ∀ r ∈ db.jobs.table.rows, ∀ j ∈ all, r.job.id = j.id → r.idempotencyKey = j.idempotencyKey
  pending : ∀ s ∈ db.pending, s ⊆ all

/-- The job is stored, or its key has an owner. -/
def Db.Settled (db : Db) (j : NewJob) : Prop := db.jobs.Stored j.id ∨ (db.jobs.holder j).isSome

section Runs

variable {all : List NewJob} {db db' : Db} {j : NewJob} {id : JobId}

theorem Db.run_cases (db : Db) (i : Nat) :
    db.run i = db ∨ ∃ s ∈ db.pending, db.run i = ⟨db.jobs.effect s,db.pending.eraseIdx i⟩ := by
  unfold Db.run
  cases h : db.pending[i]? with
  | none => exact Or.inl rfl
  | some s => exact Or.inr ⟨s,List.mem_of_getElem? h,rfl⟩

/-- One step writes one statement at most. -/
theorem Db.Of.next (h : db.Of all) {e : DbEvent} (he : (ingestDb all).allowed db e) :
    (((ingestDb all).step db e).jobs = db.jobs ∨ ∃ s, s ⊆ all ∧
      ((ingestDb all).step db e).jobs = db.jobs.effect s) ∧
    ∀ s ∈ ((ingestDb all).step db e).pending, s ⊆ all := by
  cases e with
  | late i =>
    rcases db.run_cases i with hrun | ⟨s,hs,hrun⟩
    · exact ⟨Or.inl (congrArg Db.jobs hrun),fun s hs => h.pending s (congrArg Db.pending hrun ▸ hs)⟩
    · refine ⟨Or.inr ⟨s,h.pending s hs,congrArg Db.jobs hrun⟩,fun s' hs' => ?_⟩
      have hs' : s' ∈ (db.run i).pending := hs'
      rw [hrun] at hs'
      exact h.pending s' (List.mem_of_mem_eraseIdx hs')
  | insert s => exact ⟨Or.inr ⟨s,he,rfl⟩,h.pending⟩
  | lose s =>
    refine ⟨Or.inl rfl,fun s' hs' => ?_⟩
    rcases List.mem_append.mp hs' with hs' | hs'
    · exact h.pending s' hs'
    · rw [List.mem_singleton.mp hs']
      exact he

theorem Db.Of.step (hsole : ∀ j ∈ all, ∀ k ∈ all, k.id = j.id → k = j) (h : db.Of all) {e : DbEvent}
    (he : (ingestDb all).allowed db e) : ((ingestDb all).step db e).Of all := by
  obtain ⟨hjobs,hpending⟩ := h.next he
  refine ⟨fun r hr j hj hid => ?_,hpending⟩
  rcases hjobs with hjobs | ⟨s,hs,hjobs⟩
  · exact h.rows r (hjobs ▸ hr) j hj hid
  · obtain ⟨new,hrows,hof,-⟩ := db.jobs.effect_rows s
    rw [hjobs,hrows] at hr
    rcases List.mem_append.mp hr with hr | hr
    · exact h.rows r hr j hj hid
    · obtain ⟨k,hk,hrk⟩ := hof r hr
      rw [hrk] at hid ⊢
      exact congrArg NewJob.idempotencyKey (hsole j hj k (hs hk) hid)

theorem Db.Of.reaches (hsole : ∀ j ∈ all, ∀ k ∈ all, k.id = j.id → k = j) (h : db.Of all)
    (hr : (ingestDb all).Reaches db db') : db'.Of all :=
  hr.invariant h fun _ _ hof he => hof.step hsole he

/-- Rows stay, keys keep their owners, and a job whose key has one is not put in. -/
structure Db.Grows (all : List NewJob) (db db' : Db) : Prop where
  stored : ∀ id, db.jobs.Stored id → db'.jobs.Stored id
  holder : ∀ j, (db.jobs.holder j).isSome → (db'.jobs.holder j).isSome
  settled : ∀ j ∈ all, db.Settled j → db'.jobs.Stored j.id → db.jobs.Stored j.id

theorem Db.Grows.refl (db : Db) : db.Grows all db :=
  ⟨fun _ h => h,fun _ h => h,fun _ _ _ h => h⟩

theorem Db.Grows.settles (h : db.Grows all db') (hs : db.Settled j) : db'.Settled j :=
  hs.imp (h.stored j.id) (h.holder j)

theorem Db.Grows.trans {db'' : Db} (h : db.Grows all db') (h' : db'.Grows all db'') :
    db.Grows all db'' :=
  ⟨fun id hid => h'.stored id (h.stored id hid),fun j hj => h'.holder j (h.holder j hj),
    fun j hj hs hst => h.settled j hj hs (h'.settled j hj (h.settles hs) hst)⟩

theorem Db.Of.grows (hsole : ∀ j ∈ all, ∀ k ∈ all, k.id = j.id → k = j) (h : db.Of all)
    (hr : (ingestDb all).Reaches db db') : db.Grows all db' := by
  refine (hr.invariant (I := fun x => x.Of all ∧ db.Grows all x) ⟨h,.refl db⟩ ?_).2
  rintro x e ⟨hof,hg⟩ he
  refine ⟨hof.step hsole he,hg.trans ?_⟩
  rcases (hof.next he).1 with hjobs | ⟨s,hs,hjobs⟩
  · exact ⟨fun id hid => hjobs.symm ▸ hid,fun j hj => hjobs.symm ▸ hj,fun j _ _ hj => hjobs ▸ hj⟩
  · obtain ⟨new,hrows,-,-⟩ := x.jobs.effect_rows s
    refine ⟨fun id hid => ?_,fun j hj => ?_,fun j hj hset hst => ?_⟩
    · rw [hjobs]
      exact (x.jobs.stored_effect s id).mpr (Or.inl hid)
    · rw [hjobs]
      exact Jobs.holder_append hrows hj
    · rw [hjobs] at hst
      rcases (x.jobs.stored_effect s j.id).mp hst with hst | hret
      · exact hst
      · rcases hset with hst | hheld
        · exact hst
        · exact absurd hret (Jobs.not_returned hheld fun k hk => hsole j hj k (hs hk))

theorem Db.reaches_arrive (db : Db) (is : List Nat) : (ingestDb all).Reaches db (db.arrive is) := by
  induction is generalizing db with
  | nil => exact .refl db
  | cons i is ih =>
    have hlate : (ingestDb all).Reaches db (db.run i) :=
      (Machine.Reaches.refl db).tail (show (ingestDb all).allowed db (.late i) from trivial)
    exact hlate.trans (ih (db.run i))

/-- No row with an id of `past` is new. -/
def Db.Calm (db db' : Db) (past : List JobId) : Prop :=
  ∀ id ∈ past, db'.jobs.Stored id → db.jobs.Stored id

theorem Db.calm_trans {db'' : Db} {past : List JobId} (h : db.Grows all db')
    (h' : db'.Grows all db'') : db.Calm db'' past ↔ db.Calm db' past ∧ db'.Calm db'' past := by
  constructor
  · intro hc
    exact ⟨fun id hid hst => hc id hid (h'.stored id hst),
      fun id hid hst => h.stored id (hc id hid hst)⟩
  · rintro ⟨hc,hc'⟩ id hid hst
    exact hc id hid (hc' id hid hst)

/-- The late INSERTs spare the jobs of `past` exactly when no row of theirs appears. -/
theorem Db.spares_iff (hsole : ∀ j ∈ all, ∀ k ∈ all, k.id = j.id → k = j) (h : db.Of all)
    (past : List JobId) (is : List Nat) : db.Spares past is ↔ db.Calm (db.arrive is) past := by
  induction is generalizing db with
  | nil => exact ⟨fun _ _ _ hst => hst,fun _ => trivial⟩
  | cons i is ih =>
    have hlate : (ingestDb all).Reaches db (db.run i) :=
      (Machine.Reaches.refl db).tail (show (ingestDb all).allowed db (.late i) from trivial)
    have hof := h.reaches hsole hlate
    have hone : (∀ s ∈ db.pending[i]?, ∀ id ∈ db.jobs.returned s, id ∉ past) ↔
        db.Calm (db.run i) past := by
      unfold Db.Calm Db.run
      cases hs : db.pending[i]? with
      | none => simp
      | some s =>
        simp only [Option.mem_def,Option.some.injEq,forall_eq',Jobs.stored_effect]
        constructor
        · exact fun hno id hid hst => hst.resolve_right fun hret => hno id hret hid
        · exact fun hc id hret hid => Jobs.returned_fresh hret (hc id hid (Or.inr hret))
    rw [Db.Spares,hone,ih hof]
    exact (Db.calm_trans (h.grows hsole hlate) (hof.grows hsole (Db.reaches_arrive _ is))).symm

end Runs

end GumEngine
