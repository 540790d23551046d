import GumEngine.Laws.Totals
import GumEngine.Queue.Counted

/-!
# A leader rebuilds its counters

`leader::start` and `admit_from_store` of `leader.rs` with the counters of `stats.rs`: the
terminal buckets come from `stats_rollup`, the others from the live rows and from the queued rows
that fit in memory. What the analytics endpoint reports then is a count of the stored jobs.
-/

namespace GumEngine
open Relational Transition

/-! ## The counters of all chains -/

def Counts.zero : Counts := ⟨fun _ => 0,0⟩

/-- `Counts::add` -/
def Counts.addMany (c : Counts) (b : Bucket) (n : Nat) : Counts :=
  ⟨Function.update c.slot b (c.slot b+n),c.total+n⟩

def Counts.merge (c other : Counts) : Counts :=
  ⟨fun b => c.slot b+other.slot b,c.total+other.total⟩

/-- An entry of the map behind `Stats`; `none` holds jobs that have not reached a signer. -/
structure StatsRow where
  key : ChainId × Option Address
  counts : Counts

abbrev AllStats := Keyed StatsRow.key

/-- A bucket of one signer, or of none, on one chain. -/
abbrev StatsPlace := (ChainId × Option Address) × Bucket

namespace AllStats

def reset : AllStats := ⟨[],.nil⟩

def entry (st : AllStats) (key : ChainId × Option Address) : Counts :=
  (st.rows.find? fun r => r.key = key).elim .zero (·.counts)

def add (st : AllStats) (p : StatsPlace) (n : Nat) : AllStats :=
  st.upsert ⟨p.1,Counts.zero.addMany p.2 n⟩ (fun r => { r with counts := r.counts.addMany p.2 n })
    fun _ => rfl

def count (st : AllStats) (p : StatsPlace) : Nat := (st.entry p.1).slot p.2

end AllStats

/-! ## The rebuild -/

def RollupBucket.toBucket : RollupBucket → Bucket
  | .succeeded => .succeeded
  | .reverted => .reverted
  | .failed => .failed

def RollupRow.place (r : RollupRow) : StatsPlace := ((r.key.chainId,r.key.signer),r.key.bucket.toBucket)

/-- Non-terminal bound jobs of a chain. Their order does not matter to the counters. -/
def loadLiveJobs (s : Store) (chain : ChainId) : List JobRow :=
  s.jobs.rows.filter fun j => j.request.chainId = chain && j.status ∈ [.sent,.included,.cancelling]

def JobRow.livePlace (j : JobRow) : StatsPlace :=
  ((j.request.chainId,j.signer),if j.status = .included then .included else .inFlight)

/-- The head of a chain's durable queue, in pop order; rows stand in the order of `seq`. -/
def loadQueued (s : Store) (chain : ChainId) (limit : Nat) : List JobRow :=
  ((s.jobs.rows.filter fun j => j.request.chainId = chain && j.status = .queued).mergeSort
    fun a b => a.requeueRank ≤ b.requeueRank).take limit

/-- One row of `admit_from_store`. -/
def admitRow (chain : ChainId) (q : JobQueue × AllStats) (j : JobRow) : JobQueue × AllStats :=
  (q.1.admitJob j.id,
    if q.1.admits j.id = .queued then q.2.add ((chain,none),.queued) 1 else q.2)

def admitFromStore (s : Store) (chain : ChainId) (q : JobQueue) (st : AllStats) :
    JobQueue × AllStats :=
  let loaded := (loadQueued s chain q.window).foldl (admitRow chain) (q,st)
  (loaded.1.resetOverflow,loaded.2)

/-- The live jobs of one chain, and then its queued ones. -/
def startChain (s : Store) (st : AllStats) (chain : ChainId × Nat) : AllStats :=
  (admitFromStore s chain.1 (.new chain.2)
    ((loadLiveJobs s chain.1).foldl (fun st j => st.add j.livePlace 1) st)).2

def seedTerminal (s : Store) : AllStats :=
  s.statsRollup.rows.foldl (fun st r => st.add r.place r.count) .reset

/-- The counters that `start` leaves; a chain comes with its memory window. -/
def Leader.start (s : Store) (chains : List (ChainId × Nat)) : AllStats :=
  chains.foldl (startChain s) (seedTerminal s)

/-! ## Snapshots -/

/-- What `/v1/analytics/transactions` reports. -/
structure Snapshot where
  totals : Counts
  byChain : List (ChainId × Counts)
  bySigner : List (Address × Counts)
  byChainSigner : List (ChainId × Address × Counts)

def mergeAll (rows : List StatsRow) : Counts := rows.foldl (fun t r => t.merge r.counts) .zero

/-- Entries merged under a key of their own, in the order of these keys. -/
def mergeBy (key : StatsRow → Option Nat) (rows : List StatsRow) : List (Nat × Counts) :=
  ((rows.filterMap key).dedup.mergeSort (· ≤ ·)).map fun k =>
    (k,mergeAll (rows.filter fun r => key r = some k))

def AllStats.snapshot (st : AllStats) : Snapshot where
  totals := mergeAll st.rows
  byChain := mergeBy (fun r => some r.key.1) st.rows
  bySigner := mergeBy (fun r => r.key.2) st.rows
  byChainSigner :=
    ((st.rows.filterMap fun r => r.key.2.map fun a => (r.key.1,a,r.counts)).mergeSort
      fun x y => x.1 < y.1 ∨ x.1 = y.1 ∧ x.2.1 ≤ y.2.1)

/-! ## Where the store has its jobs -/

/-- The bucket a stored job belongs in. A queued job is counted once it is in memory, and neither
it nor a live one on a chain that is not configured. -/
def Store.place (s : Store) (chains : List (ChainId × Nat)) (j : JobRow) : Option StatsPlace :=
  match j.status with
  | .queued =>
    if ∃ c ∈ chains, j ∈ loadQueued s c.1 (max c.2 1) then
      some ((j.request.chainId,none),.queued) else none
  | .sent | .cancelling | .included =>
    if ∃ c ∈ chains, c.1 = j.request.chainId then some j.livePlace else none
  | .confirmed => some ((j.request.chainId,j.signer),j.bucket.toBucket)
  | .failed => some ((j.request.chainId,j.signer),.failed)

/-! ## Adding up -/

section Adding

variable {st : AllStats} {p : StatsPlace}

theorem AllStats.entry_add (st : AllStats) (p : StatsPlace) (n : Nat) (key : ChainId × Option Address) :
    (st.add p n).entry key =
      if key = p.1 then (st.entry key).addMany p.2 n else st.entry key := by
  unfold AllStats.entry AllStats.add
  rw [Keyed.find_upsert]
  split
  · cases st.rows.find? fun r => r.key = key with
    | none => rfl
    | some r => rfl
  · rfl

theorem AllStats.count_add (st : AllStats) (p q : StatsPlace) (n : Nat) :
    (st.add p n).count q = st.count q+if p = q then n else 0 := by
  obtain ⟨key,b⟩ := p
  obtain ⟨key',b'⟩ := q
  unfold AllStats.count
  rw [entry_add]
  by_cases hk : key' = key
  · subst hk
    by_cases hb : b' = b
    · simp [Counts.addMany,hb]
    · simp [Counts.addMany,hb,Ne.symm hb]
  · simp [hk,Ne.symm hk]

/-- Entries added one after the other. -/
theorem AllStats.count_foldl {R : Type} (f : R → StatsPlace) (n : R → Nat) (rows : List R)
    (st : AllStats) (p : StatsPlace) :
    (rows.foldl (fun st r => st.add (f r) (n r)) st).count p =
      st.count p+(rows.map fun r => if f r = p then n r else 0).sum := by
  induction rows generalizing st with
  | nil => rfl
  | cons r rows ih =>
    rw [List.foldl_cons,ih,count_add,List.map_cons,List.sum_cons,Nat.add_assoc]

/-- The total of an entry is the sum of its buckets. -/
def AllStats.Balanced (st : AllStats) : Prop :=
  ∀ key, (st.entry key).total = ∑ b, (st.entry key).slot b

theorem AllStats.Balanced.reset : AllStats.reset.Balanced := fun _ => rfl

theorem AllStats.Balanced.add (h : st.Balanced) (p : StatsPlace) (n : Nat) : (st.add p n).Balanced := by
  intro key
  rw [entry_add]
  split
  · have hsum := Finset.sum_update_of_mem (Finset.mem_univ p.2) (st.entry key).slot
      ((st.entry key).slot p.2+n)
    have hold := Finset.add_sum_erase Finset.univ (st.entry key).slot (Finset.mem_univ p.2)
    have hbal := h key
    simp only [Counts.addMany]
    rw [hsum,Finset.sdiff_singleton_eq_erase]
    omega
  · exact h key

theorem AllStats.Balanced.foldl {R : Type} (f : R → StatsPlace) (n : R → Nat) (rows : List R)
    (h : st.Balanced) : (rows.foldl (fun st r => st.add (f r) (n r)) st).Balanced := by
  induction rows generalizing st with
  | nil => exact h
  | cons r rows ih => exact ih (h.add (f r) (n r))

end Adding

/-! ## Admission from the store -/

section Admission

variable {s : Store} {chain : ChainId} {limit : Nat}

theorem mem_loadQueued {j : JobRow} (h : j ∈ loadQueued s chain limit) :
    j ∈ s.jobs.rows ∧ j.request.chainId = chain ∧ j.status = .queued := by
  have hmem := List.mem_mergeSort.mp (List.mem_of_mem_take h)
  simpa using hmem

theorem loadQueued_nodup (s : Store) (chain : ChainId) (limit : Nat) :
    ((loadQueued s chain limit).map JobRow.id).Nodup := by
  have hids : (s.jobs.rows.map JobRow.id).Nodup :=
    List.pairwise_map.mpr (s.jobs.unique.imp fun h => h)
  unfold loadQueued
  rw [List.map_take]
  refine List.Nodup.sublist (List.take_sublist _ _) ?_
  exact ((List.mergeSort_perm _ _).map JobRow.id).nodup_iff.mpr
    (hids.sublist (List.filter_sublist.map JobRow.id))

theorem loadQueued_length (s : Store) (chain : ChainId) (limit : Nat) :
    (loadQueued s chain limit).length ≤ limit :=
  List.length_take_le limit _

/-- A queue with room for all of them takes rows it does not know, each counted once. -/
theorem admitRow_foldl {l : List JobRow} {q : JobQueue} {st : AllStats}
    (hroom : q.jobs.length+l.length ≤ q.window) (hnodup : (l.map JobRow.id).Nodup)
    (hknown : ∀ j ∈ l, j.id ∉ q.known) :
    (l.foldl (admitRow chain) (q,st)).2 =
      l.foldl (fun st _ => st.add ((chain,none),.queued) 1) st := by
  induction l generalizing q st with
  | nil => rfl
  | cons j l ih =>
    rw [List.length_cons] at hroom
    obtain ⟨hj,hl⟩ := List.nodup_cons.mp hnodup
    have hadmits : q.admits j.id = .queued :=
      JobQueue.admits_eq_queued.mpr ⟨hknown j List.mem_cons_self,by omega⟩
    have hq := JobQueue.admit_of_queued hadmits
    rw [List.foldl_cons,List.foldl_cons,admitRow,if_pos hadmits,hq]
    refine ih ?_ hl ?_
    · simp only [List.length_append,List.length_singleton]
      omega
    · intro x hx
      rw [Finset.mem_insert,not_or]
      refine ⟨?_,hknown x (List.mem_cons_of_mem j hx)⟩
      intro hid
      exact hj (hid ▸ List.mem_map_of_mem hx)

/-- A leader's queue is empty, and the page it loads is no longer than its window. -/
theorem startChain_eq (s : Store) (st : AllStats) (c : ChainId × Nat) :
    startChain s st c =
      (loadQueued s c.1 (max c.2 1)).foldl (fun st _ => st.add ((c.1,none),.queued) 1)
        ((loadLiveJobs s c.1).foldl (fun st j => st.add j.livePlace 1) st) := by
  refine admitRow_foldl ?_ (loadQueued_nodup s c.1 _) fun _ _ => Finset.notMem_empty _
  have hlen := loadQueued_length s c.1 (max c.2 1)
  simp only [JobQueue.new,List.length_nil]
  omega

end Admission

/-! ## What `start` counts -/

section Counting

variable {s : Store} {chains : List (ChainId × Nat)} {p : StatsPlace}

theorem sum_ones {R : Type} (f : R → Bool) (rows : List R) :
    (rows.map fun r => if f r then 1 else 0).sum = rows.countP f := by
  induction rows with
  | nil => rfl
  | cons r rows ih =>
    rw [List.map_cons,List.sum_cons,ih,List.countP_cons]
    split
    · omega
    · omega

/-- The jobs that one chain adds to a bucket. -/
def Store.adds (s : Store) (p : StatsPlace) (c : ChainId × Nat) : Nat :=
  (loadLiveJobs s c.1).countP (fun j => j.livePlace = p)+
    if ((c.1,none),.queued) = p then (loadQueued s c.1 (max c.2 1)).length else 0

theorem startChain_count (s : Store) (st : AllStats) (c : ChainId × Nat) (p : StatsPlace) :
    (startChain s st c).count p = st.count p+s.adds p c := by
  have hlive : ((loadLiveJobs s c.1).map fun j => if j.livePlace = p then 1 else 0).sum =
      (loadLiveJobs s c.1).countP (fun j => j.livePlace = p) := by
    rw [← sum_ones]
    simp
  rw [startChain_eq,AllStats.count_foldl,AllStats.count_foldl,hlive,Store.adds]
  split
  · simp
    omega
  · simp

theorem start_count (s : Store) (chains : List (ChainId × Nat)) (p : StatsPlace) :
    (Leader.start s chains).count p = (seedTerminal s).count p+(chains.map (s.adds p)).sum := by
  unfold Leader.start
  generalize seedTerminal s = st
  induction chains generalizing st with
  | nil => rfl
  | cons c chains ih =>
    rw [List.foldl_cons,ih,startChain_count,List.map_cons,List.sum_cons]
    omega

/-- A sum over the chains that only one of them contributes to. -/
theorem sum_chain {k : ChainId} {n : Nat} (hnodup : (chains.map Prod.fst).Nodup)
    (hc : (k,n) ∈ chains) {f : ChainId × Nat → Nat} (hf : ∀ c ∈ chains, c.1 ≠ k → f c = 0) :
    (chains.map f).sum = f (k,n) := by
  induction chains with
  | nil => cases hc
  | cons c chains ih =>
    obtain ⟨hnot,hnodup⟩ := List.nodup_cons.mp hnodup
    rw [List.map_cons,List.sum_cons]
    rcases List.mem_cons.mp hc with rfl | hc
    · have hrest : (chains.map f).sum = 0 := by
        rw [List.sum_eq_zero]
        intro x hx
        obtain ⟨d,hd,rfl⟩ := List.mem_map.mp hx
        refine hf d (List.mem_cons_of_mem _ hd) fun hk => hnot ?_
        exact List.mem_map.mpr ⟨d,hd,hk⟩
      omega
    · have hzero : f c = 0 := hf c List.mem_cons_self fun hk => hnot (hk ▸ List.mem_map_of_mem hc)
      rw [hzero,ih hnodup hc fun d hd => hf d (List.mem_cons_of_mem _ hd)]
      omega

theorem sum_no_chain {f : ChainId × Nat → Nat} (hf : ∀ c ∈ chains, f c = 0) :
    (chains.map f).sum = 0 := by
  rw [List.sum_eq_zero]
  intro x hx
  obtain ⟨c,hc,rfl⟩ := List.mem_map.mp hx
  exact hf c hc

/-- A chain adds to its own buckets only. -/
theorem Store.adds_other {c : ChainId × Nat} (h : c.1 ≠ p.1.1) : s.adds p c = 0 := by
  have hlive : (loadLiveJobs s c.1).countP (fun j => j.livePlace = p) = 0 := by
    rw [List.countP_eq_zero]
    intro j hj hp
    have hchain : j.request.chainId = c.1 := by
      have hfil := (List.mem_filter.mp hj).2
      simp only [Bool.and_eq_true,decide_eq_true_eq] at hfil
      exact hfil.1
    simp only [decide_eq_true_eq] at hp
    rw [← hp] at h
    exact h hchain.symm
  rw [adds,hlive,if_neg]
  rintro rfl
  exact h rfl

theorem RollupBucket.toBucket_inj {a b : RollupBucket} (h : a.toBucket = b.toBucket) : a = b := by
  cases a <;> cases b <;> first | rfl | cases h

theorem RollupRow.place_eq {r : RollupRow} {key : RollupKey} :
    r.place = ((key.chainId,key.signer),key.bucket.toBucket) ↔ r.key = key := by
  constructor
  · intro h
    obtain ⟨⟨chain,signer,b⟩,n⟩ := r
    obtain ⟨chain',signer',b'⟩ := key
    simp only [RollupRow.place,Prod.mk.injEq] at h
    obtain ⟨⟨rfl,rfl⟩,hb⟩ := h
    rw [RollupBucket.toBucket_inj hb]
  · rintro rfl
    rfl

/-- Of the rows of a table at most one has a given key. -/
theorem sum_key {l : List RollupRow} (hl : l.Pairwise fun a b => a.key ≠ b.key) (key : RollupKey) :
    (l.map fun r => if r.key = key then r.count else 0).sum =
      (l.find? fun r => r.key = key).elim 0 (·.count) := by
  induction l with
  | nil => rfl
  | cons r l ih =>
    obtain ⟨hr,hl⟩ := List.pairwise_cons.mp hl
    rw [List.map_cons,List.sum_cons]
    by_cases hk : r.key = key
    · have hrest : (l.map fun x => if x.key = key then x.count else 0).sum = 0 := by
        rw [List.sum_eq_zero]
        intro n hn
        obtain ⟨x,hx,rfl⟩ := List.mem_map.mp hn
        exact if_neg fun hxk => hr x hx (hk.trans hxk.symm)
      rw [hrest,if_pos hk,List.find?_cons_of_pos (by simpa using hk)]
      rfl
    · rw [if_neg hk,List.find?_cons_of_neg (by simpa using hk),ih hl,Nat.zero_add]

/-- The terminal counters are the rollups. -/
theorem seedTerminal_count (hs : RollupExact s) (key : RollupKey) :
    (seedTerminal s).count ((key.chainId,key.signer),key.bucket.toBucket) =
      s.jobs.rows.countP fun j => j.rollupKey = some key := by
  rw [seedTerminal,AllStats.count_foldl]
  simp only [RollupRow.place_eq]
  rw [sum_key (s.statsRollup.unique.imp fun h => h),List.countP_eq_length_filter]
  exact (Nat.zero_add _).trans (hs key)

theorem seedTerminal_live {key : ChainId × Option Address} {b : Bucket}
    (hb : ∀ x : RollupBucket, x.toBucket ≠ b) : (seedTerminal s).count (key,b) = 0 := by
  rw [seedTerminal,AllStats.count_foldl]
  have hrest : (s.statsRollup.rows.map fun r => if r.place = (key,b) then r.count else 0).sum = 0 := by
    rw [List.sum_eq_zero]
    intro n hn
    obtain ⟨r,-,rfl⟩ := List.mem_map.mp hn
    exact if_neg fun hp => hb r.key.bucket (congrArg Prod.snd hp)
  rw [hrest]
  rfl

/-- Each row of a list without repetitions that `rows` has too is found there once. -/
theorem countP_mem {rows l : List JobRow} (hrows : rows.Nodup) (hl : l.Nodup)
    (hsub : ∀ j ∈ l, j ∈ rows) : rows.countP (fun j => j ∈ l) = l.length := by
  rw [List.countP_eq_length_filter]
  refine List.Perm.length_eq ((List.perm_ext_iff_of_nodup (hrows.filter _) hl).mpr ?_)
  intro j
  rw [List.mem_filter]
  simp only [decide_eq_true_eq]
  exact ⟨fun h => h.2,fun h => ⟨hsub j h,h⟩⟩

theorem Store.place_of_queued {j : JobRow} (h : j.status = .queued) : s.place chains j =
    if ∃ c ∈ chains, j ∈ loadQueued s c.1 (max c.2 1) then
      some ((j.request.chainId,none),.queued) else none := by
  simp only [Store.place,h]

theorem Store.place_of_live {j : JobRow} (h : j.status ∈ [JobStatus.sent,.included,.cancelling]) :
    s.place chains j =
      if ∃ c ∈ chains, c.1 = j.request.chainId then some j.livePlace else none := by
  simp only [List.mem_cons,List.not_mem_nil,or_false] at h
  rcases h with h | h | h
  · simp only [Store.place,h]
  · simp only [Store.place,h]
  · simp only [Store.place,h]

theorem Store.place_of_ended {j : JobRow} (h : j.status.isTerminal = true) :
    s.place chains j =
      j.rollupKey.map fun key => ((key.chainId,key.signer),key.bucket.toBucket) := by
  unfold JobRow.rollupKey
  cases hst : j.status with
  | confirmed =>
    simp only [Store.place,hst]
    rfl
  | failed =>
    simp only [Store.place,hst]
    rfl
  | _ =>
    rw [hst] at h
    cases h

/-- The three kinds of stored jobs. -/
theorem JobRow.status_cases (j : JobRow) :
    j.status = .queued ∨ j.status ∈ [JobStatus.sent,.included,.cancelling] ∨
      j.status.isTerminal = true := by
  cases j.status <;> decide

/-- Which bucket a stored job can be in. -/
theorem Store.place_bucket {j : JobRow} {p : StatsPlace} (h : s.place chains j = some p) :
    j.status = .queued ∧ p.2 = .queued ∨
    j.status ∈ [JobStatus.sent,.included,.cancelling] ∧ (p.2 = .inFlight ∨ p.2 = .included) ∨
    j.status.isTerminal = true ∧ ∃ b : RollupBucket, p.2 = b.toBucket := by
  rcases j.status_cases with hst | hst | hst
  · rw [place_of_queued hst] at h
    split at h
    · cases h
      exact .inl ⟨hst,rfl⟩
    · cases h
  · rw [place_of_live hst] at h
    split at h
    · cases h
      refine .inr (.inl ⟨hst,?_⟩)
      unfold JobRow.livePlace
      split
      · exact .inr rfl
      · exact .inl rfl
    · cases h
  · rw [place_of_ended hst] at h
    obtain ⟨key,-,rfl⟩ := Option.map_eq_some_iff.mp h
    exact .inr (.inr ⟨hst,key.bucket,rfl⟩)

/-- A terminal bucket has the terminal jobs. -/
theorem Store.place_terminal (j : JobRow) (key : RollupKey) :
    s.place chains j = some ((key.chainId,key.signer),key.bucket.toBucket) ↔
      j.rollupKey = some key := by
  have hinj : ∀ key' : RollupKey, ((key'.chainId,key'.signer),key'.bucket.toBucket) =
      ((key.chainId,key.signer),key.bucket.toBucket) → key' = key := by
    rintro ⟨chain,signer,b⟩ h
    obtain ⟨chain',signer',b'⟩ := key
    simp only [Prod.mk.injEq] at h
    obtain ⟨⟨rfl,rfl⟩,hb⟩ := h
    rw [RollupBucket.toBucket_inj hb]
  constructor
  · intro h
    rcases place_bucket h with ⟨-,hb⟩ | ⟨-,hb⟩ | ⟨hst,-⟩
    · cases hk : key.bucket <;> simp [hk,RollupBucket.toBucket] at hb
    · cases hk : key.bucket <;> simp [hk,RollupBucket.toBucket] at hb
    · rw [place_of_ended hst] at h
      obtain ⟨key',hkey,heq⟩ := Option.map_eq_some_iff.mp h
      rw [hkey,hinj key' heq]
  · intro h
    have hst : j.status.isTerminal = true := by
      unfold JobRow.rollupKey at h
      cases hst : j.status with
      | confirmed => rfl
      | failed => rfl
      | _ =>
        rw [hst] at h
        cases h
    rw [place_of_ended hst,h]
    rfl

/-- The bucket of live jobs of a chain has the live jobs that were loaded. -/
theorem Store.place_live {j : JobRow} {p : StatsPlace} (hb : p.2 = .inFlight ∨ p.2 = .included) :
    s.place chains j = some p ↔ (∃ c ∈ chains, c.1 = p.1.1) ∧
      j.status ∈ [JobStatus.sent,.included,.cancelling] ∧ j.livePlace = p := by
  constructor
  · intro h
    rcases place_bucket h with ⟨-,hq⟩ | ⟨hst,-⟩ | ⟨-,x,hx⟩
    · rw [hq] at hb
      simp at hb
    · rw [place_of_live hst] at h
      split at h
      · next hc =>
        cases h
        exact ⟨hc,hst,rfl⟩
      · cases h
    · rw [hx] at hb
      cases x <;> simp [RollupBucket.toBucket] at hb
  · rintro ⟨hc,hst,rfl⟩
    rw [place_of_live hst]
    exact if_pos hc

/-- The queued bucket of a chain has the rows its queue took. -/
theorem Store.place_queued {j : JobRow} {key : ChainId × Option Address} :
    s.place chains j = some (key,.queued) ↔
      key.2 = none ∧ ∃ c ∈ chains, c.1 = key.1 ∧ j ∈ loadQueued s c.1 (max c.2 1) := by
  constructor
  · intro h
    rcases place_bucket h with ⟨hst,-⟩ | ⟨-,hb⟩ | ⟨-,x,hx⟩
    · rw [place_of_queued hst] at h
      split at h
      · next hc =>
        obtain ⟨c,hc,hj⟩ := hc
        cases h
        exact ⟨rfl,c,hc,(mem_loadQueued hj).2.1.symm,hj⟩
      · cases h
    · simp at hb
    · cases x <;> simp [RollupBucket.toBucket] at hx
  · rintro ⟨hnone,c,hc,hk,hj⟩
    obtain ⟨chain,signer⟩ := key
    obtain rfl : signer = none := hnone
    obtain ⟨-,hchain,hst⟩ := mem_loadQueued hj
    rw [place_of_queued hst,if_pos ⟨c,hc,hj⟩,hchain,hk]

/-- No chain adds to a terminal bucket, or to one that only a worker moves jobs into. -/
theorem Store.adds_none {c : ChainId × Nat} {key : ChainId × Option Address} {b : Bucket}
    (hq : b ≠ .queued) (hf : b ≠ .inFlight) (hi : b ≠ .included) : s.adds (key,b) c = 0 := by
  have hlive : (loadLiveJobs s c.1).countP (fun j => j.livePlace = (key,b)) = 0 := by
    rw [List.countP_eq_zero]
    intro j _ hp
    simp only [decide_eq_true_eq] at hp
    have hb := congrArg Prod.snd hp
    unfold JobRow.livePlace at hb
    split at hb
    · exact hi hb.symm
    · exact hf hb.symm
  rw [adds,hlive,if_neg]
  intro hp
  exact hq (congrArg Prod.snd hp).symm

theorem sum_adds_live (hnodup : (chains.map Prod.fst).Nodup)
    (hb : p.2 = .inFlight ∨ p.2 = .included) :
    (chains.map (s.adds p)).sum = s.jobs.rows.countP fun j => s.place chains j = some p := by
  by_cases hc : ∃ n, (p.1.1,n) ∈ chains
  · obtain ⟨n,hc⟩ := hc
    have hno : ((p.1.1,none),Bucket.queued) ≠ p := by
      intro hp
      rw [← hp] at hb
      simp at hb
    rw [sum_chain hnodup hc fun c _ hne => Store.adds_other hne,Store.adds,if_neg hno,Nat.add_zero,
      loadLiveJobs,List.countP_filter]
    refine List.countP_congr fun j _ => ?_
    simp only [Bool.and_eq_true,decide_eq_true_eq,Store.place_live hb]
    constructor
    · rintro ⟨hp,-,hst⟩
      exact ⟨⟨(p.1.1,n),hc,rfl⟩,hst,hp⟩
    · rintro ⟨-,hst,hp⟩
      exact ⟨hp,congrArg (fun q : StatsPlace => q.1.1) hp,hst⟩
  · rw [sum_no_chain fun c hcm => Store.adds_other fun hk => hc ⟨c.2,hk ▸ hcm⟩,eq_comm,
      List.countP_eq_zero]
    intro j _ hp
    simp only [decide_eq_true_eq] at hp
    obtain ⟨⟨c,hcm,hk⟩,-⟩ := (Store.place_live hb).mp hp
    exact hc ⟨c.2,hk ▸ hcm⟩

theorem sum_adds_queued (hnodup : (chains.map Prod.fst).Nodup) (key : ChainId × Option Address) :
    (chains.map (s.adds (key,.queued))).sum =
      s.jobs.rows.countP fun j => s.place chains j = some (key,.queued) := by
  have hlive : ∀ c : ChainId × Nat,
      (loadLiveJobs s c.1).countP (fun j => j.livePlace = (key,Bucket.queued)) = 0 := by
    intro c
    rw [List.countP_eq_zero]
    intro j _ hp
    simp only [decide_eq_true_eq] at hp
    have hb := congrArg Prod.snd hp
    unfold JobRow.livePlace at hb
    split at hb
    · cases hb
    · cases hb
  by_cases hc : key.2 = none ∧ ∃ n, (key.1,n) ∈ chains
  · obtain ⟨hnone,n,hc⟩ := hc
    obtain ⟨chain,signer⟩ := key
    obtain rfl : signer = none := hnone
    have hrows : s.jobs.rows.Nodup := s.jobs.nodup fun _ => rfl
    have hloaded : (loadQueued s chain (max n 1)).Nodup := (loadQueued_nodup s chain _).of_map
    rw [sum_chain hnodup hc fun c _ hne => Store.adds_other hne,Store.adds,hlive,if_pos rfl,
      Nat.zero_add,← countP_mem hrows hloaded fun j hj => (mem_loadQueued hj).1]
    refine List.countP_congr fun j _ => ?_
    simp only [decide_eq_true_eq]
    rw [Store.place_queued]
    constructor
    · exact fun hj => ⟨rfl,(chain,n),hc,rfl,hj⟩
    · rintro ⟨-,⟨chain',m⟩,hcm,rfl,hj⟩
      -- a chain is configured once
      obtain rfl : m = n := congrArg Prod.snd (List.inj_on_of_nodup_map hnodup hcm hc rfl)
      exact hj
  · have hzero : ∀ c ∈ chains, s.adds (key,.queued) c = 0 := by
      intro c hcm
      rw [Store.adds,hlive,if_neg]
      intro hp
      have hkey : (c.1,none) = key := congrArg Prod.fst hp
      refine hc ⟨by rw [← hkey],c.2,?_⟩
      rw [← hkey]
      exact hcm
    rw [sum_no_chain hzero,eq_comm,List.countP_eq_zero]
    intro j _ hp
    simp only [decide_eq_true_eq] at hp
    obtain ⟨hnone,c,hcm,hk,-⟩ := Store.place_queued.mp hp
    exact hc ⟨hnone,c.2,hk ▸ hcm⟩

/-- After a takeover every bucket has the number of stored jobs that belong in it. -/
theorem start_exact (hs : RollupExact s) (hnodup : (chains.map Prod.fst).Nodup) (p : StatsPlace) :
    (Leader.start s chains).count p = s.jobs.rows.countP fun j => s.place chains j = some p := by
  rw [start_count]
  obtain ⟨⟨chain,signer⟩,b⟩ := p
  -- terminal buckets come from the rollups alone
  have hterminal : ∀ x : RollupBucket, b = x.toBucket → (seedTerminal s).count ((chain,signer),b)+
      (chains.map (s.adds ((chain,signer),b))).sum =
        s.jobs.rows.countP fun j => s.place chains j = some ((chain,signer),b) := by
    rintro x rfl
    rw [sum_no_chain fun c _ => Store.adds_none (by cases x <;> decide) (by cases x <;> decide)
      (by cases x <;> decide),seedTerminal_count hs ⟨chain,signer,x⟩,Nat.add_zero]
    refine List.countP_congr fun j _ => ?_
    simp only [decide_eq_true_eq]
    exact (Store.place_terminal j ⟨chain,signer,x⟩).symm
  cases b with
  | queued =>
    rw [seedTerminal_live (by intro x; cases x <;> decide),Nat.zero_add]
    exact sum_adds_queued hnodup (chain,signer)
  | processing =>
    rw [seedTerminal_live (by intro x; cases x <;> decide),Nat.zero_add,
      sum_no_chain fun c _ => Store.adds_none (by decide) (by decide) (by decide),eq_comm,
      List.countP_eq_zero]
    intro j _ hp
    simp only [decide_eq_true_eq] at hp
    rcases Store.place_bucket hp with ⟨-,hb⟩ | ⟨-,hb⟩ | ⟨-,x,hx⟩
    · cases hb
    · simp at hb
    · cases x <;> cases hx
  | inFlight =>
    rw [seedTerminal_live (by intro x; cases x <;> decide),Nat.zero_add]
    exact sum_adds_live hnodup (.inl rfl)
  | included =>
    rw [seedTerminal_live (by intro x; cases x <;> decide),Nat.zero_add]
    exact sum_adds_live hnodup (.inr rfl)
  | succeeded => exact hterminal .succeeded rfl
  | reverted => exact hterminal .reverted rfl
  | failed => exact hterminal .failed rfl

end Counting

/-! ## What is reported -/

section Reports

variable {s : Store} {chains : List (ChainId × Nat)} {st : AllStats}

theorem mergeAll_slot (rows : List StatsRow) (b : Bucket) :
    (mergeAll rows).slot b = (rows.map fun r => r.counts.slot b).sum := by
  have hfold : ∀ t : Counts, (rows.foldl (fun t r => t.merge r.counts) t).slot b =
      t.slot b+(rows.map fun r => r.counts.slot b).sum := by
    induction rows with
    | nil => exact fun t => rfl
    | cons r rows ih =>
      intro t
      rw [List.foldl_cons,ih,List.map_cons,List.sum_cons,← Nat.add_assoc]
      rfl
  exact (hfold .zero).trans (Nat.zero_add _)

theorem mergeAll_total (rows : List StatsRow) :
    (mergeAll rows).total = (rows.map fun r => r.counts.total).sum := by
  have hfold : ∀ t : Counts, (rows.foldl (fun t r => t.merge r.counts) t).total =
      t.total+(rows.map fun r => r.counts.total).sum := by
    induction rows with
    | nil => exact fun t => rfl
    | cons r rows ih =>
      intro t
      rw [List.foldl_cons,ih,List.map_cons,List.sum_cons,← Nat.add_assoc]
      rfl
  exact (hfold .zero).trans (Nat.zero_add _)

theorem AllStats.entry_of_mem {r : StatsRow} (hr : r ∈ st.rows) : st.entry r.key = r.counts := by
  rw [AllStats.entry,Keyed.find_of_mem st hr rfl]
  rfl

/-- Counting pairs by rows or by jobs. -/
theorem countP_comm {A B : Type} (g : A → B → Bool) (l : List A) (m : List B) :
    (l.map fun a => m.countP (g a)).sum = (m.map fun b => l.countP fun a => g a b).sum := by
  induction l with
  | nil => simp
  | cons a l ih =>
    rw [List.map_cons,List.sum_cons,ih,← sum_ones,← List.sum_map_add]
    refine congrArg List.sum (List.map_congr_left fun b _ => ?_)
    rw [List.countP_cons,Nat.add_comm]

theorem AllStats.countP_key {r : StatsRow} (hr : r ∈ st.rows) :
    st.rows.countP (fun x => x.key = r.key) = 1 := by
  have hnodup : (st.rows.map StatsRow.key).Nodup :=
    List.pairwise_map.mpr (st.unique.imp fun h => h)
  have hone := List.count_eq_one_of_mem hnodup (List.mem_map_of_mem hr)
  rw [List.count,List.countP_map] at hone
  rw [← hone]
  refine List.countP_congr fun x _ => ?_
  simp

/-- An entry exists for every job that is counted. -/
theorem AllStats.row_of_placed {jobs : List JobRow} {f : JobRow → Option StatsPlace}
    (hcount : ∀ p, st.count p = jobs.countP fun j => f j = some p) {j : JobRow} {p : StatsPlace}
    (hj : j ∈ jobs) (hp : f j = some p) : ∃ r ∈ st.rows, r.key = p.1 := by
  by_contra hno
  have hzero : st.count p = 0 := by
    have hfind : st.rows.find? (fun r => r.key = p.1) = none := by
      rw [List.find?_eq_none]
      intro r hr hk
      exact hno ⟨r,hr,by simpa using hk⟩
    rw [AllStats.count,AllStats.entry,hfind]
    rfl
  rw [hcount,List.countP_eq_zero] at hzero
  exact hzero j hj (by simpa using hp)

/-- Buckets that count the jobs `f` puts there, added up over some of the entries. -/
theorem sum_entries {jobs : List JobRow} {f : JobRow → Option StatsPlace}
    (hcount : ∀ p, st.count p = jobs.countP fun j => f j = some p)
    (q : ChainId × Option Address → Bool) (b : Bucket) :
    ((st.rows.filter fun r => q r.key).map fun r => r.counts.slot b).sum =
      jobs.countP fun j => (f j).any fun p => q p.1 && p.2 = b := by
  have hentry : ((st.rows.filter fun r => q r.key).map fun r => r.counts.slot b) =
      (st.rows.filter fun r => q r.key).map fun r => jobs.countP fun j => f j = some (r.key,b) := by
    refine List.map_congr_left fun r hr => ?_
    rw [← AllStats.entry_of_mem (List.mem_of_mem_filter hr)]
    exact hcount (r.key,b)
  rw [hentry,countP_comm,← sum_ones]
  refine congrArg List.sum (List.map_congr_left fun j hj => ?_)
  rw [List.countP_filter]
  cases hp : f j with
  | none =>
    rw [List.countP_eq_zero.mpr]
    · simp
    · simp
  | some p =>
    by_cases hq : (q p.1 && p.2 = b) = true
    · have hb : p.2 = b := by
        simp only [Bool.and_eq_true,decide_eq_true_eq] at hq
        exact hq.2
      obtain ⟨r,hr,hk⟩ := AllStats.row_of_placed hcount hj hp
      rw [Option.any_some,if_pos hq,← AllStats.countP_key hr]
      refine List.countP_congr fun x _ => ?_
      simp only [Bool.and_eq_true,decide_eq_true_eq,Option.some.injEq] at hq ⊢
      constructor
      · rintro ⟨hx,-⟩
        rw [hk,hx]
      · intro hx
        rw [hx,hk]
        exact ⟨by rw [← hb],hq.1⟩
    · rw [Option.any_some,if_neg hq,List.countP_eq_zero]
      intro x _ hx
      simp only [Bool.and_eq_true,decide_eq_true_eq,Option.some.injEq] at hq hx
      obtain ⟨rfl,hx⟩ := hx
      exact hq ⟨hx,rfl⟩

/-- The counts of a report are counts of the stored jobs. -/
structure Reported (s : Store) (chains : List (ChainId × Nat)) (snap : Snapshot) : Prop where
  totals : ∀ b, snap.totals.slot b =
    s.jobs.rows.countP fun j => (s.place chains j).any fun p => p.2 = b
  total : snap.totals.total = s.jobs.rows.countP fun j => (s.place chains j).isSome
  byChain : ∀ c n, (c,n) ∈ snap.byChain → ∀ b, n.slot b =
    s.jobs.rows.countP fun j => (s.place chains j).any fun p => p.1.1 = c && p.2 = b
  bySigner : ∀ a n, (a,n) ∈ snap.bySigner → ∀ b, n.slot b =
    s.jobs.rows.countP fun j => (s.place chains j).any fun p => p.1.2 = some a && p.2 = b
  byChainSigner : ∀ c a n, (c,a,n) ∈ snap.byChainSigner → ∀ b, n.slot b =
    s.jobs.rows.countP fun j => s.place chains j = some ((c,some a),b)
  complete : ∀ j ∈ s.jobs.rows, ∀ p, s.place chains j = some p →
    (∃ n, (p.1.1,n) ∈ snap.byChain) ∧ ∀ a, p.1.2 = some a → (∃ n, (a,n) ∈ snap.bySigner) ∧
      ∃ n, (p.1.1,a,n) ∈ snap.byChainSigner

theorem mem_mergeBy {key : StatsRow → Option Nat} {rows : List StatsRow} {k : Nat} {c : Counts}
    (h : (k,c) ∈ mergeBy key rows) : c = mergeAll (rows.filter fun r => key r = some k) := by
  obtain ⟨k',-,heq⟩ := List.mem_map.mp h
  cases heq
  rfl

theorem mergeBy_of_mem {key : StatsRow → Option Nat} {rows : List StatsRow} {r : StatsRow} {k : Nat}
    (hr : r ∈ rows) (hk : key r = some k) : ∃ c, (k,c) ∈ mergeBy key rows := by
  refine ⟨_,List.mem_map.mpr ⟨k,?_,rfl⟩⟩
  rw [List.mem_mergeSort,List.mem_dedup,List.mem_filterMap]
  exact ⟨r,hr,hk⟩

theorem start_balanced (s : Store) (chains : List (ChainId × Nat)) : (Leader.start s chains).Balanced := by
  have hseed : (seedTerminal s).Balanced := AllStats.Balanced.reset.foldl _ _ _
  unfold Leader.start
  generalize seedTerminal s = st at hseed
  induction chains generalizing st with
  | nil => exact hseed
  | cons c chains ih =>
    rw [List.foldl_cons,startChain_eq]
    exact ih _ ((hseed.foldl _ (fun _ => 1) _).foldl _ (fun _ => 1) _)

theorem AllStats.Balanced.sum_total (h : st.Balanced) {rows : List StatsRow}
    (hrows : ∀ r ∈ rows, r ∈ st.rows) :
    (rows.map fun r => r.counts.total).sum = ∑ b, (rows.map fun r => r.counts.slot b).sum := by
  induction rows with
  | nil => simp
  | cons r rows ih =>
    have hr := h r.key
    rw [AllStats.entry_of_mem (hrows r List.mem_cons_self)] at hr
    simp only [List.map_cons,List.sum_cons]
    rw [Finset.sum_add_distrib,hr,ih fun x hx => hrows x (List.mem_cons_of_mem r hx)]

/-- Each job is in one bucket, or in none. -/
theorem sum_buckets (f : JobRow → Option StatsPlace) (jobs : List JobRow) :
    ∑ b, jobs.countP (fun j => (f j).any fun p => p.2 = b) = jobs.countP fun j => (f j).isSome := by
  induction jobs with
  | nil => simp
  | cons j jobs ih =>
    simp only [List.countP_cons]
    rw [Finset.sum_add_distrib,ih]
    cases f j with
    | none => simp
    | some p => simp

theorem RollupExact.reaches (h : ledger.Reaches Store.empty s) : RollupExact s :=
  h.invariant (fun _ => rfl) fun _ _ hs hop =>
    Op.outbox_rule (fun _ _ => RollupExact.step) hop.failsLive hs

/-- What the analytics endpoint reports after a takeover, whatever transactions the store has
seen: the stored jobs, each counted once, by chain and by signer. -/
theorem takeover_reported (h : ledger.Reaches Store.empty s) (hnodup : (chains.map Prod.fst).Nodup) :
    Reported s chains (Leader.start s chains).snapshot := by
  have hcount := start_exact (RollupExact.reaches h) hnodup
  have htotals : ∀ b, ((Leader.start s chains).rows.map fun r => r.counts.slot b).sum =
      s.jobs.rows.countP fun j => (s.place chains j).any fun p => p.2 = b := by
    intro b
    have hall := sum_entries hcount (fun _ => true) b
    simpa using hall
  refine ⟨?_,?_,?_,?_,?_,?_⟩
  · intro b
    exact (mergeAll_slot _ b).trans (htotals b)
  · refine (mergeAll_total _).trans ?_
    rw [(start_balanced s chains).sum_total fun r hr => hr]
    simp only [htotals]
    exact sum_buckets _ _
  · intro c n hn b
    rw [mem_mergeBy hn,mergeAll_slot]
    have hsome := sum_entries hcount (fun key => key.1 = c) b
    simpa using hsome
  · intro a n hn b
    rw [mem_mergeBy hn,mergeAll_slot]
    exact sum_entries hcount (fun key => key.2 = some a) b
  · intro c a n hn b
    obtain ⟨r,hr,hra⟩ := List.mem_filterMap.mp (List.mem_mergeSort.mp hn)
    obtain ⟨a',ha',heq⟩ := Option.map_eq_some_iff.mp hra
    cases heq
    have hkey : r.key = (r.key.1,some a) := by
      rw [← ha']
    rw [← AllStats.entry_of_mem hr,hkey]
    exact hcount ((r.key.1,some a),b)
  · intro j hj p hp
    obtain ⟨r,hr,hk⟩ := AllStats.row_of_placed hcount hj hp
    refine ⟨mergeBy_of_mem hr (congrArg (fun k => some k.1) hk),?_⟩
    intro a ha
    have hra : r.key.2 = some a := by
      rw [hk]
      exact ha
    refine ⟨mergeBy_of_mem hr hra,r.counts,?_⟩
    refine List.mem_mergeSort.mpr (List.mem_filterMap.mpr ⟨r,hr,?_⟩)
    rw [hra,hk]
    rfl

/-- One job each that is confirmed, failed in its queue, in flight and queued. -/
def handoverOps : List Op :=
  let a := Sample.attempt 3 0 .job (.job 1)
  let b := Sample.attempt 4 1 .job (.job 2)
  [.insertJob 1 Sample.request,.insertJob 2 Sample.request,.insertJob 3 Sample.request,
    .insertJob 4 Sample.request,.bindAttempt 0 a .first,.bindAttempt 0 b .first,
    .settleInclusion a (Sample.inclusion 3 10 100) true,.cancelQueued 3]

theorem takeover_reported_handover :
    ∃ s, ledger.Reaches Store.empty s ∧
      (Leader.start s [(1,8)]).snapshot.bySigner.map (fun x => (x.1,x.2.total)) = [(9,2)] ∧
      (Leader.start s [(1,8)]).snapshot.totals.total = 4 ∧
      Reported s [(1,8)] (Leader.start s [(1,8)]).snapshot := by
  have hrun : ledger.Runs Store.empty handoverOps := by decide
  exact ⟨_,hrun.reaches,by decide +kernel,by decide +kernel,
    takeover_reported hrun.reaches (by decide)⟩

end Reports

end GumEngine
