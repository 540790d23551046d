import GumEngine.Queue.Tracked
import GumEngine.Sorting.Buckets

/-!
# Every job in one bucket

The counters of `stats.rs` beside a book that has, for every job, the bucket its last move took
it to. The code moves counts by hand and takes the bucket a job is in from where it found the
job; the book shows when it was there.
-/

namespace GumEngine
open Transition Sorting

instance : Fintype Bucket where
  elems := {.queued,.processing,.inFlight,.included,.succeeded,.reverted,.failed}
  complete b := by cases b <;> decide

def Disposition.bucket : Disposition → Bucket
  | .failed | .dropped | .requeue false => .processing
  | .failedAfterBind | .requeue true => .inFlight

def LeftJob.bucket {S : Type} (l : LeftJob S) : Bucket := if l.included then .included else .inFlight

namespace TaskAt

variable {S : Type}

/-- The bucket a worker takes its job to be in. -/
def slot (w : S) : TaskAt → Option (StatsSlot S)
  | idle | forgetting _ => none
  | popped _ | pushing _ => some (none,.queued)
  | processing _ => some (some w,.processing)
  | sending _ | bound _ => some (some w,.inFlight)
  | ending _ d => some (some w,d.bucket)

/-- The worker holds a job that the store has as queued. -/
def unbound : TaskAt → Bool
  | popped _ | processing _ | sending _ | pushing _ | ending _ (.requeue _) => true
  | idle | bound _ | forgetting _ | ending _ _ => false

end TaskAt

namespace Desk

variable {S : Type} [DecidableEq S]

/-- The job that a worker's counters move, and where to. -/
def workerMoves (c : DeskConfig) (s : Desk S) (w : S) (e : DeskEvent S) :
    Option (JobId × StatsSlot S) :=
  match s.worker w,e with
  | .popped j,.start _ => some (j,some w,.processing)
  | .processing j,.send _ => some (j,some w,.inFlight)
  | .sending j,.bind _ =>
    if s.stored j = some .queued then none else some (j,some w,.processing)
  | .sending j,.notBound _ => some (j,some w,.processing)
  | .bound j,.mined _ .cancel _ => if c.immediate then some (j,some w,.failed) else none
  | .bound j,.mined _ _ outcome =>
    some (j,some w,if c.immediate then outcome.terminalBucket else .included)
  | .ending j .failed,.finish _ | .ending j .failedAfterBind,.finish _ => some (j,some w,.failed)
  | .ending j (.requeue _),.finish _ | .ending j .dropped,.finish _ => some (j,none,.queued)
  | _,_ => none

/-- The job that a step's counters are about, and the bucket they take it to. -/
def moves (c : DeskConfig) (s : Desk S) (e : DeskEvent S) : Option (JobId × StatsSlot S) :=
  match e with
  | .count j => some (j,none,.queued)
  | .cancelCount j _ => some (j,none,.failed)
  | .accountMoved job =>
    some (job.id,some job.signer,if job.included then .inFlight else .included)
  | .accountEnded job outcome =>
    some (job.id,some job.signer,if job.included then outcome.terminalBucket else .failed)
  | .submit _ | .sweep _ | .resetOverflow | .admitJob _ | .pop _ | .cancel _ | .cancelStore _ _
  | .cancelLost _ _ | .settle _ _ => none
  | .putBack w | .start w | .fail w | .retry w | .send w | .bind w | .notBound w | .void w _
  | .mined w _ _ | .leave w | .finish w | .release w => s.workerMoves c w e

end Desk

/-- The desk, the book, and the jobs that were taken into the queue. -/
structure Booked (S : Type) where
  desk : Desk S
  book : Buckets JobId (StatsSlot S)
  admitted : Finset JobId

namespace Booked

variable {S : Type} [DecidableEq S]

def step (c : DeskConfig) (b : Booked S) (e : DeskEvent S) : Booked S where
  desk := b.desk.step c e
  book :=
    match b.desk.moves c e with
    | some (j,p) => b.book.put j p
    | none => b.book
  admitted :=
    match e with
    | .admitJob j => if b.desk.queue.admits j = .queued then insert j b.admitted else b.admitted
    | _ => b.admitted

def machine (c : DeskConfig) : Machine (Booked S) (DeskEvent S) :=
  ⟨fun b e => b.desk.Allowed e,step c⟩

instance (c : DeskConfig) (b : Booked S) (e : DeskEvent S) :
    Decidable ((machine c).allowed b e) :=
  inferInstanceAs (Decidable (b.desk.Allowed e))

/-- A leader starts from the store, with the counters it has rebuilt. -/
def boot (window : Nat) (stored : JobId → Option (StoredAt S)) (left : List (LeftJob S))
    (stats : Stats S) (book : Buckets JobId (StatsSlot S)) : Booked S :=
  ⟨Desk.boot window stored left stats,book,∅⟩

/-- Where a job is, and the bucket it is taken to be in there. -/
inductive Spot {S : Type} (s : Desk S) (j : JobId) : StatsSlot S → Prop
  | waiting (h : j ∈ s.queue.jobs) : Spot s j (none,.queued)
  | held {w : S} {p : StatsSlot S} (h : s.Holds w j) (hp : (s.worker w).slot w = some p) : Spot s j p
  | left {l : LeftJob S} (h : l ∈ s.left) (hl : l.id = j) : Spot s j (some l.signer,l.bucket)
  | taken (h : (j,.removed true) ∈ s.cancels ∨ (j,.committed true) ∈ s.cancels) :
      Spot s j (none,.queued)

/-- A job still to be counted: admitted, or cancelled out of the store alone. -/
def Uncounted (b : Booked S) (j : JobId) : Prop :=
  j ∈ b.desk.counting ∨ (j,.committed false) ∈ b.desk.cancels

/-- Every job that was admitted or is past its queue, but for those still to be counted, is in one
bucket, and the counters say so. Where a job is in memory, that is its bucket. -/
structure Counted [Fintype S] (b : Booked S) : Prop where
  exact : ∀ p, b.desk.stats.count p = b.book.size p
  placed : ∀ j p, Spot b.desk j p → b.book.In j p ∨ j ∈ b.desk.counting
  sum : ∑ p, b.desk.stats.count p = b.book.items.card
  total : ∑ o, (b.desk.stats.counts o).total = b.book.items.card
  jobs : ∀ j, j ∈ b.book.items ∨ b.Uncounted j ↔ j ∈ b.admitted ∨ b.desk.Past j

/-- No step meets a job in the middle of another: a row that is taken in is still queued and is not
being cancelled; a worker or a cancel moves a job only once it is counted; the cancel of a job
that does not wait commits only when no one has it in memory; and the store does not refuse the
cancel of one that waits. -/
def Undisturbed (b : Booked S) : DeskEvent S → Prop
  | .admitJob j => b.desk.queue.admits j = .queued →
    b.desk.stored j = some .queued ∧ (j,.removed true) ∉ b.desk.cancels
  | .start w => ∀ j ∈ (b.desk.worker w).job, j ∉ b.desk.counting
  | .cancelStore j waiting => b.desk.stored j = some .queued → waiting = false →
    j ∉ b.desk.queue.known ∧ (j,.removed true) ∉ b.desk.cancels
  | .cancelLost _ waiting => waiting = false
  | .cancelCount j waiting => waiting = true → j ∉ b.desk.counting
  | _ => True

instance Undisturbed.decidable (b : Booked S) : (e : DeskEvent S) → Decidable (b.Undisturbed e)
  | .admitJob j => inferInstanceAs (Decidable (b.desk.queue.admits j = .queued →
      b.desk.stored j = some .queued ∧ (j,CancelAt.removed true) ∉ b.desk.cancels))
  | .start w => inferInstanceAs (Decidable (∀ j ∈ (b.desk.worker w).job, j ∉ b.desk.counting))
  | .cancelStore j waiting => inferInstanceAs (Decidable (b.desk.stored j = some .queued →
      waiting = false → j ∉ b.desk.queue.known ∧ (j,CancelAt.removed true) ∉ b.desk.cancels))
  | .cancelLost _ waiting => inferInstanceAs (Decidable (waiting = false))
  | .cancelCount j waiting => inferInstanceAs (Decidable (waiting = true → j ∉ b.desk.counting))
  | .submit _ | .sweep _ | .resetOverflow | .count _ | .pop _ | .putBack _ | .fail _ | .retry _
  | .send _ | .bind _ | .notBound _ | .void _ _ | .mined _ _ _ | .leave _ | .finish _ | .release _
  | .cancel _ | .settle _ _ | .accountMoved _ | .accountEnded _ _ => inferInstanceAs (Decidable True)

end Booked

namespace Stats

variable {S : Type} {st st' m : Stats S} {p q r : StatsSlot S}

/-- Every total is the sum of its buckets. -/
def Balanced (st : Stats S) : Prop := ∀ o, (st.counts o).total = ∑ b, (st.counts o).slot b

/-- One job goes from bucket `p` to bucket `q`. -/
structure Moves [DecidableEq S] (st st' : Stats S) (p q : StatsSlot S) : Prop where
  count : ∀ r, st'.count r+(if r = p then 1 else 0) = st.count r+if r = q then 1 else 0
  balanced : st.Balanced → st'.Balanced

variable [DecidableEq S]

theorem Moves.trans (h : Moves st m p q) (h' : Moves m st' q r) : Moves st st' p r where
  count := by
    intro t
    have h1 := h.count t
    have h2 := h'.count t
    omega
  balanced := fun hb => h'.balanced (h.balanced hb)

theorem sum_update (f : Bucket → Nat) (b : Bucket) (n : Nat) :
    (∑ x, Function.update f b n x)+f b = (∑ x, f x)+n := by
  have h1 := Finset.add_sum_erase Finset.univ (Function.update f b n) (Finset.mem_univ b)
  have h2 := Finset.add_sum_erase Finset.univ f (Finset.mem_univ b)
  have hrest : ∑ x ∈ Finset.univ.erase b, Function.update f b n x =
      ∑ x ∈ Finset.univ.erase b, f x :=
    Finset.sum_congr rfl fun x hx => Function.update_of_ne (Finset.ne_of_mem_erase hx) ..
  rw [Function.update_self,hrest] at h1
  omega

theorem Balanced.add (h : st.Balanced) (p : StatsSlot S) : (st.add p).Balanced := by
  intro o
  by_cases ho : o = p.1
  · subst ho
    have hsum := sum_update (st.counts p.1).slot p.2 ((st.counts p.1).slot p.2+1)
    have hold := h p.1
    simp only [Stats.add,Function.update_self,Counts.add]
    omega
  · simp only [Stats.add,Function.update_of_ne ho]
    exact h o

theorem Balanced.sub (h : st.Balanced) (hp : 0 < st.count p) : (st.sub p).Balanced := by
  intro o
  by_cases ho : o = p.1
  · subst ho
    have hsum := sum_update (st.counts p.1).slot p.2 ((st.counts p.1).slot p.2-1)
    have hold := h p.1
    have hpos : 0 < (st.counts p.1).slot p.2 := hp
    simp only [Stats.sub,Function.update_self,Counts.sub]
    omega
  · simp only [Stats.sub,Function.update_of_ne ho]
    exact h o

/-- A transition out of a bucket that has a job is a move. -/
theorem transition_moves (h : 0 < st.count p) (q : StatsSlot S) :
    Moves st (st.transition p q) p q where
  count := by
    intro r
    rw [count_transition]
    by_cases hr : r = p
    · subst hr
      rw [if_pos rfl,if_congr (eq_comm (a := q) (b := r)) rfl rfl]
      omega
    · rw [if_neg (Ne.symm hr),if_neg hr,if_congr (eq_comm (a := q) (b := r)) rfl rfl]
      omega
  balanced := fun hb => (hb.sub h).add q

end Stats

namespace Desk

variable {S : Type} [DecidableEq S] {c : DeskConfig} {s : Desk S} {w : S} {e : DeskEvent S}

/-- The counters of a worker's step: nothing, or one job that it holds leaves the bucket the worker
takes it to be in. -/
theorem workerStep_moves
    (hpos : s.workerMoves c w e ≠ none → ∀ p ∈ (s.worker w).slot w, 0 < s.stats.count p) :
    (s.workerMoves c w e = none ∧ (s.workerStep c w e).stats = s.stats) ∨
    ∃ j p q, s.workerMoves c w e = some (j,q) ∧ s.Holds w j ∧ (s.worker w).slot w = some p ∧
      Stats.Moves s.stats (s.workerStep c w e).stats p q := by
  have hslot {t : TaskAt} {p : StatsSlot S} {m : JobId × StatsSlot S} (hw : s.worker w = t)
      (hp : t.slot w = some p) (hm : s.workerMoves c w e = some m) : 0 < s.stats.count p :=
    hpos (by rw [hm]; nofun) p (by rw [hw]; exact hp)
  have hmove {t : TaskAt} {j : JobId} {p q : StatsSlot S} {st : Stats S} (hw : s.worker w = t)
      (hj : t.job = some j) (hp : t.slot w = some p) (hm : s.workerMoves c w e = some (j,q))
      (hst : st = s.stats.transition p q) :
      ∃ j p q, s.workerMoves c w e = some (j,q) ∧ s.Holds w j ∧ (s.worker w).slot w = some p ∧
        Stats.Moves s.stats st p q :=
    ⟨j,p,q,hm,by rw [Holds,hw,hj],by rw [hw,hp],hst ▸ Stats.transition_moves (hslot hw hp hm) q⟩
  unfold workerStep
  split
  next j _ hw => exact .inl ⟨by simp [workerMoves,hw],rfl⟩
  next j _ hw => exact .inr (hmove hw rfl rfl (by simp [workerMoves,hw]) rfl)
  next j _ hw => exact .inl ⟨by simp [workerMoves,hw],by split <;> rfl⟩
  next j _ hw => exact .inl ⟨by simp [workerMoves,hw],rfl⟩
  next j _ hw => exact .inr (hmove hw rfl rfl (by simp [workerMoves,hw]) rfl)
  next j _ hw =>
    split
    next hq => exact .inl ⟨by simp [workerMoves,hw,hq],rfl⟩
    next hq => exact .inr (hmove hw rfl rfl (by simp [workerMoves,hw,hq]) rfl)
  next j _ hw => exact .inr (hmove hw rfl rfl (by simp [workerMoves,hw]) rfl)
  next j _ hw => exact .inl ⟨by simp [workerMoves,hw],rfl⟩
  next j _ hw => exact .inl ⟨by simp [workerMoves,hw],rfl⟩
  next j _ _ hw =>
    split
    next hi => exact .inr (hmove hw rfl rfl (by simp [workerMoves,hw,hi]) rfl)
    next hi => exact .inl ⟨by simp [workerMoves,hw,hi],rfl⟩
  next j v purpose outcome _ hw =>
    dsimp only
    split
    next hi =>
      -- inclusion and confirmation at once: two moves of one job
      have hm : s.workerMoves c w (.mined v purpose outcome) =
          some (j,some w,outcome.terminalBucket) := by
        simp [workerMoves,hw,hi]
      have hfirst := Stats.transition_moves (hslot hw rfl hm) (some w,.included)
      have hpos' : 0 < (s.stats.transition (some w,.inFlight) (some w,.included)).count
          (some w,.included) := by
        have hcount := hfirst.count (some w,.included)
        rw [if_neg (by simp),if_pos rfl] at hcount
        omega
      exact .inr ⟨j,_,_,hm,by rw [Holds,hw]; rfl,by rw [hw]; rfl,
        hfirst.trans (Stats.transition_moves hpos' _)⟩
    next hi => exact .inr (hmove hw rfl rfl (by simp [workerMoves,hw,hi]) rfl)
  next j _ hw => exact .inl ⟨by simp [workerMoves,hw],rfl⟩
  next j _ hw => exact .inr (hmove hw rfl rfl (by simp [workerMoves,hw]) rfl)
  next j _ hw => exact .inr (hmove hw rfl rfl (by simp [workerMoves,hw]) rfl)
  next j afterBind _ hw =>
    exact .inr (hmove hw rfl (by cases afterBind <;> rfl) (by simp [workerMoves,hw]) rfl)
  next j _ hw => exact .inr (hmove hw rfl rfl (by simp [workerMoves,hw]) rfl)
  next j _ hw => exact .inl ⟨by simp [workerMoves,hw],rfl⟩
  next j _ hw => exact .inl ⟨by simp [workerMoves,hw],rfl⟩
  next =>
    refine .inl ⟨?_,rfl⟩
    unfold workerMoves
    split
    all_goals grind

end Desk

namespace Booked

variable {S : Type}

/-- A step of no worker, after which a job is in fewer places. -/
theorem Spot.mono {s s' : Desk S} {j : JobId} {p : StatsSlot S} (h : Spot s' j p)
    (hqueue : j ∈ s'.queue.jobs → j ∈ s.queue.jobs) (hworker : s'.worker = s.worker)
    (hleft : ∀ l : LeftJob S, l.id = j → l ∈ s'.left → l ∈ s.left)
    (htaken : (j,.removed true) ∈ s'.cancels ∨ (j,.committed true) ∈ s'.cancels →
      (j,.removed true) ∈ s.cancels ∨ (j,.committed true) ∈ s.cancels) : Spot s j p := by
  cases h with
  | waiting hq => exact .waiting (hqueue hq)
  | held hw hp =>
    rw [hworker] at hp
    exact .held (by rw [Desk.Holds,← hworker]; exact hw) hp
  | left hl hid => exact .left (hleft _ hid hl) hid
  | taken ht => exact .taken (htaken ht)

/-- Whoever has the job takes it to be queued in the store. -/
def Unbound (s : Desk S) (j : JobId) : Prop :=
  j ∈ s.queue.jobs ∨ (∃ w, s.Holds w j ∧ (s.worker w).unbound = true) ∨
    (j,.removed true) ∈ s.cancels

/-- What holds of each job along an undisturbed run. -/
structure KeptAt (b : Booked S) (j : JobId) : Prop where
  spot : ∀ p, Spot b.desk j p → b.book.In j p ∨ j ∈ b.desk.counting ∧ p = (none,.queued)
  queued : Unbound b.desk j → b.desk.stored j = some .queued
  found : j ∈ b.book.items ∨ j ∈ b.desk.counting → b.desk.stored j = some .queued →
    Unbound b.desk j
  counting : b.desk.counting.count j ≤ 1
  new : j ∈ b.desk.counting → j ∉ b.book.items
  removed : (j,.removed true) ∈ b.desk.cancels → j ∉ b.desk.queue.known
  once : ∀ x, x ≠ .removed false → b.desk.cancels.count (j,x) ≤ 1
  committed : ∀ k, (j,.committed k) ∈ b.desk.cancels → b.desk.Past j
  alone : (j,.committed false) ∈ b.desk.cancels → j ∉ b.book.items ∧ j ∉ b.desk.counting
  kept : ∀ w, b.desk.worker w ≠ .ending j .dropped
  active : (j ∈ b.desk.queue.jobs ∨ ∃ w, b.desk.Holds w j) → j ∈ b.admitted
  admitted : j ∈ b.admitted → b.desk.stored j ≠ none
  jobs : j ∈ b.book.items ∨ b.Uncounted j ↔ j ∈ b.admitted ∨ b.desk.Past j

/-- A step that neither counts, stores nor cancels the job. -/
structure SameBooks (b b' : Booked S) (k : JobId) : Prop where
  stored : b'.desk.stored k = b.desk.stored k
  cancels : ∀ x, x ≠ .removed false →
    b'.desk.cancels.count (k,x) = b.desk.cancels.count (k,x)
  counting : b'.desk.counting.count k = b.desk.counting.count k
  book : ∀ p, b'.book.In k p ↔ b.book.In k p
  admitted : k ∈ b'.admitted ↔ k ∈ b.admitted

/-- A step that does not concern the job. -/
structure Same (b b' : Booked S) (k : JobId) extends SameBooks b b' k where
  queue : k ∈ b'.desk.queue.jobs ↔ k ∈ b.desk.queue.jobs
  known : k ∈ b'.desk.queue.known ↔ k ∈ b.desk.queue.known
  worker : ∀ w t, t.job = some k → (b'.desk.worker w = t ↔ b.desk.worker w = t)
  left : ∀ l : LeftJob S, l.id = k → (l ∈ b'.desk.left ↔ l ∈ b.desk.left)

/-- A step after which the job may be elsewhere, but nowhere it would be counted otherwise. -/
structure Relocated (b b' : Booked S) (k : JobId) extends SameBooks b b' k where
  known : k ∈ b'.desk.queue.known → k ∈ b.desk.queue.known
  spot : ∀ p, Spot b'.desk k p → Spot b.desk k p
  unbound : Unbound b'.desk k ↔ Unbound b.desk k
  kept : ∀ w, b'.desk.worker w = .ending k .dropped → b.desk.worker w = .ending k .dropped
  active : (k ∈ b'.desk.queue.jobs ∨ ∃ w, b'.desk.Holds w k) → k ∈ b.desk.queue.jobs ∨ ∃ w, b.desk.Holds w k

section Same

variable {b b' : Booked S} {k : JobId}

theorem SameBooks.mem_counting (h : SameBooks b b' k) :
    k ∈ b'.desk.counting ↔ k ∈ b.desk.counting := by
  rw [← List.count_pos_iff,← List.count_pos_iff,h.counting]

theorem SameBooks.mem_cancels (h : SameBooks b b' k) {x : CancelAt} (hx : x ≠ .removed false) :
    (k,x) ∈ b'.desk.cancels ↔ (k,x) ∈ b.desk.cancels := by
  rw [← List.count_pos_iff,← List.count_pos_iff,h.cancels x hx]

theorem SameBooks.mem_items (h : SameBooks b b' k) : k ∈ b'.book.items ↔ k ∈ b.book.items := by
  constructor
  · exact fun hk => ((h.book (b'.book.place k)).1 ⟨hk,rfl⟩).1
  · exact fun hk => ((h.book (b.book.place k)).2 ⟨hk,rfl⟩).1

theorem SameBooks.past (h : SameBooks b b' k) : b'.desk.Past k ↔ b.desk.Past k := by
  rw [Desk.Past,Desk.Past,h.stored]

theorem SameBooks.uncounted (h : SameBooks b b' k) : b'.Uncounted k ↔ b.Uncounted k := by
  rw [Uncounted,Uncounted,h.mem_counting,h.mem_cancels (by simp)]

theorem Same.holds (h : Same b b' k) (w : S) (t : TaskAt → Prop) :
    (b'.desk.Holds w k ∧ t (b'.desk.worker w)) ↔ (b.desk.Holds w k ∧ t (b.desk.worker w)) := by
  constructor
  · rintro ⟨hw,ht⟩
    have heq := (h.worker w (b'.desk.worker w) hw).1 rfl
    rw [Desk.Holds,heq]
    exact ⟨hw,ht⟩
  · rintro ⟨hw,ht⟩
    have heq := (h.worker w (b.desk.worker w) hw).2 rfl
    rw [Desk.Holds,heq]
    exact ⟨hw,ht⟩

theorem Same.relocated (h : Same b b' k) : Relocated b b' k where
  toSameBooks := h.toSameBooks
  known := h.known.1
  spot p hs := by
    cases hs with
    | waiting hq => exact .waiting (h.queue.1 hq)
    | @held w _ hw hp =>
      obtain ⟨hw',hp'⟩ := (h.holds w fun t => t.slot w = some p).1 ⟨hw,hp⟩
      exact .held hw' hp'
    | left hl hid => exact .left ((h.left _ hid).1 hl) hid
    | taken ht =>
      refine .taken (ht.imp ?_ ?_)
      · exact (h.mem_cancels (by simp)).1
      · exact (h.mem_cancels (by simp)).1
  unbound := by
    unfold Unbound
    rw [h.queue,h.mem_cancels (by simp)]
    exact or_congr_right (or_congr_left (exists_congr fun w => h.holds w fun t => t.unbound = true))
  kept w hw := (h.worker w _ rfl).1 hw
  active := by
    rw [h.queue]
    rintro (hq | ⟨w,hw⟩)
    · exact .inl hq
    · exact .inr ⟨w,((h.holds w fun _ => True).1 ⟨hw,trivial⟩).1⟩

/-- Whatever holds of a job survives that it goes elsewhere. -/
theorem KeptAt.relocated (h : KeptAt b k) (hr : Relocated b b' k) : KeptAt b' k where
  spot p hp := by
    rw [hr.book,hr.mem_counting]
    exact h.spot p (hr.spot p hp)
  queued hu := by
    rw [hr.stored]
    exact h.queued (hr.unbound.1 hu)
  found hk hst := by
    rw [hr.mem_items,hr.mem_counting] at hk
    rw [hr.stored] at hst
    exact hr.unbound.2 (h.found hk hst)
  counting := by
    rw [hr.counting]
    exact h.counting
  new hk := by
    rw [hr.mem_items]
    exact h.new (hr.mem_counting.1 hk)
  removed hk hknown := h.removed ((hr.mem_cancels (by simp)).1 hk) (hr.known hknown)
  once x hx := by
    rw [hr.cancels x hx]
    exact h.once x hx
  committed x hx := by
    rw [hr.past]
    exact h.committed x ((hr.mem_cancels (by simp)).1 hx)
  alone hx := by
    rw [hr.mem_items,hr.mem_counting]
    exact h.alone ((hr.mem_cancels (by simp)).1 hx)
  kept w hw := h.kept w (hr.kept w hw)
  active hk := by
    rw [hr.admitted]
    exact h.active (hr.active hk)
  admitted hk := by
    rw [hr.stored]
    exact h.admitted (hr.admitted.1 hk)
  jobs := by
    rw [hr.mem_items,hr.uncounted,hr.admitted,hr.past]
    exact h.jobs

theorem KeptAt.same (h : KeptAt b k) (hs : Same b b' k) : KeptAt b' k := h.relocated hs.relocated

end Same

section Clear

variable {b : Booked S} {j : JobId} {w : S} {p : StatsSlot S}

/-- No cancel is about the job, but for one that found it gone. -/
def Clear (b : Booked S) (j : JobId) : Prop := ∀ x, x ≠ .removed false → (j,x) ∉ b.desk.cancels

/-- A job in a bucket other than the queued one is not taken by a cancel. -/
theorem KeptAt.clear_of_in (h : KeptAt b j) (hin : b.book.In j p) (hp : p ≠ (none,.queued)) :
    b.Clear j := by
  have htaken : ¬((j,.removed true) ∈ b.desk.cancels ∨ (j,.committed true) ∈ b.desk.cancels) := by
    intro ht
    obtain hin' | ⟨hc,-⟩ := h.spot _ (.taken ht)
    · exact hp (hin.unique hin')
    · exact h.new hc hin.1
  intro x hx hmem
  cases x with
  | removed waiting =>
    cases waiting with
    | false => exact hx rfl
    | true => exact htaken (.inl hmem)
  | committed waiting =>
    cases waiting with
    | false => exact (h.alone hmem).1 hin.1
    | true => exact htaken (.inr hmem)

/-- Nor is one that is known and waits for a worker, or is with one that has not bound it. -/
theorem KeptAt.clear_of_unbound (h : KeptAt b j) (hknown : j ∈ b.desk.queue.known)
    (hub : Unbound b.desk j) : b.Clear j := by
  have hqueued := h.queued hub
  intro x hx hmem
  cases x with
  | removed waiting =>
    cases waiting with
    | false => exact hx rfl
    | true => exact h.removed hmem hknown
  | committed waiting => exact (h.committed waiting hmem).2 hqueued

/-- A worker that has bound its job does not take it to be queued. -/
theorem slot_ne_queued {t : TaskAt} (ht : t.unbound = false) (hp : t.slot w = some p) :
    p ≠ (none,.queued) := by
  rintro rfl
  revert hp ht
  cases t with
  | ending i d => simp [TaskAt.slot]
  | _ => simp [TaskAt.slot,TaskAt.unbound]

/-- A job that a worker counts on is not being cancelled. -/
theorem KeptAt.clear [Fintype S] (h : KeptAt b j) (ho : b.desk.Orderly) (hw : b.desk.Holds w j)
    (hp : (b.desk.worker w).slot w = some p) : b.Clear j := by
  cases hub : (b.desk.worker w).unbound with
  | false =>
    have hne := slot_ne_queued hub hp
    have hin := (h.spot p (.held hw hp)).resolve_right fun hc => hne hc.2
    exact h.clear_of_in hin hne
  | true =>
    exact h.clear_of_unbound ((ho.tracked j).held hw).1 (.inr (.inl ⟨w,hw,hub⟩))

/-- A job that no cancel has taken. -/
theorem KeptAt.of_clear (hclear : b.Clear j) (hin : j ∈ b.book.items ∨ j ∈ b.desk.counting)
    (hjob : j ∈ b.admitted ∨ b.desk.Past j)
    (hactive : (j ∈ b.desk.queue.jobs ∨ ∃ w, b.desk.Holds w j) → j ∈ b.admitted)
    (hcount : b.desk.counting.count j ≤ 1) (hnew : j ∈ b.desk.counting → j ∉ b.book.items)
    (hspot : ∀ p, Spot b.desk j p → b.book.In j p ∨ j ∈ b.desk.counting ∧ p = (none,.queued))
    (hub : Unbound b.desk j ↔ b.desk.stored j = some .queued) (hstored : b.desk.stored j ≠ none)
    (hkept : ∀ w, b.desk.worker w ≠ .ending j .dropped) : KeptAt b j where
  spot := hspot
  queued := hub.1
  found _ := hub.2
  counting := hcount
  new := hnew
  removed hmem := absurd hmem (hclear _ (by simp))
  once x hx := by
    rw [List.count_eq_zero.2 (hclear x hx)]
    exact Nat.zero_le 1
  committed x hmem := absurd hmem (hclear _ (by simp))
  alone hmem := absurd hmem (hclear _ (by simp))
  kept := hkept
  active := hactive
  admitted _ := hstored
  jobs := iff_of_true (hin.imp_right .inl) hjob

/-- A job that is not in memory and was never taken in. -/
theorem KeptAt.of_absent (hclear : b.Clear j) (hitems : j ∉ b.book.items)
    (hcounting : j ∉ b.desk.counting) (hadmitted : j ∉ b.admitted) (hpast : ¬b.desk.Past j)
    (hactive : ¬(j ∈ b.desk.queue.jobs ∨ ∃ w, b.desk.Holds w j)) (hleft : j ∉ b.desk.leftIds) :
    KeptAt b j where
  spot p hs := by
    cases hs with
    | waiting hq => exact absurd (.inl hq) hactive
    | @held w _ hw => exact absurd (.inr ⟨w,hw⟩) hactive
    | @left l hl hid => exact absurd (List.mem_map.2 ⟨l,hl,hid⟩) hleft
    | taken ht => exact absurd ht (not_or.2 ⟨hclear _ (by simp),hclear _ (by simp)⟩)
  queued hu := by
    obtain hq | ⟨w,hw,-⟩ | hr := hu
    · exact absurd (.inl hq) hactive
    · exact absurd (.inr ⟨w,hw⟩) hactive
    · exact absurd hr (hclear _ (by simp))
  found hin := absurd hin (not_or.2 ⟨hitems,hcounting⟩)
  counting := by
    rw [List.count_eq_zero.2 hcounting]
    exact Nat.zero_le 1
  new hc := absurd hc hcounting
  removed hmem := absurd hmem (hclear _ (by simp))
  once x hx := by
    rw [List.count_eq_zero.2 (hclear x hx)]
    exact Nat.zero_le 1
  committed x hmem := absurd hmem (hclear _ (by simp))
  alone _ := ⟨hitems,hcounting⟩
  kept w hw := hactive (.inr ⟨w,by rw [Desk.Holds,hw]; rfl⟩)
  active ha := absurd ha hactive
  admitted ha := absurd ha hadmitted
  jobs := iff_of_false (not_or.2 ⟨hitems,not_or.2 ⟨hcounting,hclear _ (by simp)⟩⟩)
    (not_or.2 ⟨hadmitted,hpast⟩)

end Clear

section Task

variable [DecidableEq S] {c : DeskConfig} {b b' : Booked S} {e : DeskEvent S} {w : S} {j k : JobId}
  {t : TaskAt} {p q : StatsSlot S}

/-- A step of the worker that holds `j` does not concern other jobs. -/
theorem same_of_effect (he : Desk.TaskEffect b.desk b'.desk w) (hj : b.desk.Holds w j) (hk : k ≠ j)
    (hcancels : b'.desk.cancels = b.desk.cancels) (hcounting : b'.desk.counting = b.desk.counting)
    (hbook : ∀ p, b'.book.In k p ↔ b.book.In k p) (hadmitted : b'.admitted = b.admitted) :
    Same b b' k := by
  have hrest : ∀ x, x ≠ CancelAt.removed false →
      b'.desk.cancels.count (k,x) = b.desk.cancels.count (k,x) := fun _ _ => by rw [hcancels]
  have hcount : b'.desk.counting.count k = b.desk.counting.count k := by rw [hcounting]
  have hadm : k ∈ b'.admitted ↔ k ∈ b.admitted := by rw [hadmitted]
  -- whatever task `w` goes to, it is not about `k`
  have hworker {t : TaskAt} (ht : t.job ≠ some k)
      (hu : b'.desk.worker = Function.update b.desk.worker w t) :
      ∀ v u, u.job = some k → (b'.desk.worker v = u ↔ b.desk.worker v = u) := by
    intro v u hjob
    rw [hu]
    by_cases hv : v = w
    · subst hv
      rw [Function.update_self]
      refine iff_of_false ?_ ?_
      · rintro rfl
        exact ht hjob
      · rintro rfl
        exact hk (Option.some.inj (hjob.symm.trans hj))
    · rw [Function.update_of_ne hv]
  have hidle : TaskAt.idle.job ≠ some k := by simp [TaskAt.job]
  have hheld {i : JobId} (hi : b.desk.Holds w i) : k ≠ i := by
    have : i = j := Option.some.inj (hi.symm.trans hj)
    rwa [this]
  cases he with
  | none h =>
    exact ⟨⟨by rw [h],hrest,hcount,hbook,hadm⟩,by rw [h],by rw [h],fun _ _ _ => by rw [h],
      fun _ _ => by rw [h]⟩
  | keeps i t held job worker queue left stored bound =>
    have hne := hheld held
    refine ⟨⟨stored k hne,hrest,hcount,hbook,hadm⟩,by rw [queue],by rw [queue],hworker ?_ worker,
      fun l _ => by rw [left]⟩
    rw [job]
    exact fun h => hne (Option.some.inj h).symm
  | pushes i held worker queue left stored =>
    have hne := hheld held
    refine ⟨⟨by rw [stored],hrest,hcount,hbook,hadm⟩,?_,?_,hworker hidle worker,
      fun l _ => by rw [left]⟩
    · rw [queue]
      simp [JobQueue.pushFront,hne]
    · rw [queue]
      simp [JobQueue.pushFront,hne]
  | forgets i held worker queue left stored =>
    have hne := hheld held
    refine ⟨⟨by rw [stored],hrest,hcount,hbook,hadm⟩,by rw [queue]; rfl,?_,hworker hidle worker,
      fun l _ => by rw [left]⟩
    rw [queue]
    simp [JobQueue.forget,hne]
  | leaves i included held worker queue left stored =>
    have hne := hheld (i := i) (by rw [Desk.Holds,held]; rfl)
    refine ⟨⟨by rw [stored],hrest,hcount,hbook,hadm⟩,by rw [queue],by rw [queue],
      hworker hidle worker,fun l hl => ?_⟩
    rw [left,List.mem_cons]
    refine or_iff_right ?_
    rintro rfl
    exact hne hl.symm

variable [Fintype S]

/-- After a step of its holder nobody else holds a job. -/
theorem holder_of_update (ho : b.desk.Orderly) (hw : b.desk.Holds w j)
    (hworker : b'.desk.worker = Function.update b.desk.worker w t) {v : S}
    (hv : b'.desk.Holds v j) : v = w := by
  by_contra hne
  rw [Desk.Holds,hworker,Function.update_of_ne hne] at hv
  exact hne ((ho.tracked j).holder hw hv)

/-- What the step of a worker that goes on holding `j` leaves of the places of `j`. -/
structure Keeps (b b' : Booked S) (w : S) (j : JobId) (t : TaskAt) : Prop where
  worker : b'.desk.worker = Function.update b.desk.worker w t
  job : t.job = some j
  queue : b'.desk.queue = b.desk.queue
  left : b'.desk.left = b.desk.left
  cancels : b'.desk.cancels = b.desk.cancels
  counting : b'.desk.counting = b.desk.counting
  admitted : b'.admitted = b.admitted

theorem Keeps.spot (h : Keeps b b' w j t) (ho : b.desk.Orderly) (hw : b.desk.Holds w j)
    (hclear : b.Clear j) (hs : Spot b'.desk j p) :
    t.slot w = some p := by
  obtain ⟨-,hqueue,-,hleft⟩ := (ho.tracked j).held hw
  cases hs with
  | waiting hq =>
    rw [h.queue] at hq
    exact absurd hq (List.count_eq_zero.1 hqueue)
  | @held v _ hv hp =>
    obtain rfl := holder_of_update ho hw h.worker hv
    rwa [h.worker,Function.update_self] at hp
  | @left l hl hid =>
    rw [h.left] at hl
    exact absurd (List.mem_map.2 ⟨l,hl,hid⟩) (List.count_eq_zero.1 hleft)
  | taken ht =>
    rw [h.cancels] at ht
    obtain ht | ht := ht
    · exact absurd ht (hclear _ (by simp))
    · exact absurd ht (hclear _ (by simp))

theorem Keeps.unbound (h : Keeps b b' w j t) (ho : b.desk.Orderly) (hw : b.desk.Holds w j)
    (hclear : b.Clear j) :
    Unbound b'.desk j ↔ t.unbound = true := by
  obtain ⟨-,hqueue,-⟩ := (ho.tracked j).held hw
  have hself : b'.desk.worker w = t := by rw [h.worker,Function.update_self]
  constructor
  · rintro (hq | ⟨v,hv,hub⟩ | hr)
    · rw [h.queue] at hq
      exact absurd hq (List.count_eq_zero.1 hqueue)
    · obtain rfl := holder_of_update ho hw h.worker hv
      rwa [hself] at hub
    · rw [h.cancels] at hr
      exact absurd hr (hclear _ (by simp))
  · intro hub
    exact .inr (.inl ⟨w,by rw [Desk.Holds,hself,h.job],by rw [hself]; exact hub⟩)

omit [DecidableEq S] [Fintype S] in
/-- A job in a bucket of its worker has been counted. -/
theorem KeptAt.in_of_held (h : KeptAt b j) (hw : b.desk.Holds w j)
    (hp : (b.desk.worker w).slot w = some p) (hne : p ≠ (none,.queued)) : b.book.In j p :=
  (h.spot p (.held hw hp)).resolve_right fun hc => hne hc.2

/-- A worker knows whether the store has its job as queued. -/
theorem KeptAt.unbound_iff (h : KeptAt b j) (ho : b.desk.Orderly) (hw : b.desk.Holds w j)
    (hp : (b.desk.worker w).slot w = some p) :
    (b.desk.worker w).unbound = true ↔ b.desk.stored j = some .queued := by
  constructor
  · exact fun hub => h.queued (.inr (.inl ⟨w,hw,hub⟩))
  · intro hst
    have hin : j ∈ b.book.items ∨ j ∈ b.desk.counting :=
      (h.spot p (.held hw hp)).imp (fun hin => hin.1) fun hc => hc.1
    obtain hq | ⟨v,hv,hub⟩ | hr := h.found hin hst
    · exact absurd hq (List.count_eq_zero.1 ((ho.tracked j).held hw).2.1)
    · rwa [(ho.tracked j).holder hw hv] at hub
    · exact absurd hr (h.clear ho hw hp _ (by simp))

/-- The worker goes on. The row stays or is written as the worker takes it, and the job stays where
it was counted or is counted where the worker takes it. -/
theorem KeptAt.keeps (hb : KeptAt b j) (ho : b.desk.Orderly) (hw : b.desk.Holds w j)
    (hp : (b.desk.worker w).slot w = some p) (h : Keeps b b' w j t) (ht : t ≠ .ending j .dropped)
    (hrow : b'.desk.stored = b.desk.stored ∧ t.unbound = (b.desk.worker w).unbound ∨
      ∃ st, b'.desk.stored j = some st ∧ (t.unbound = true ↔ st = .queued))
    (hbook : b'.book = b.book ∧ t.slot w = (b.desk.worker w).slot w ∨
      ∃ q, b'.book = b.book.put j q ∧ j ∉ b.desk.counting ∧ ∀ q' ∈ t.slot w, q' = q) :
    KeptAt b' j := by
  have hclear := hb.clear ho hw hp
  have hadm : j ∈ b.admitted := hb.active (.inr ⟨w,hw⟩)
  have hadm' : j ∈ b'.admitted := by rwa [h.admitted]
  have hspot := hb.spot p (.held hw hp)
  have hstored : b'.desk.stored j ≠ none ∧
      (t.unbound = true ↔ b'.desk.stored j = some .queued) := by
    obtain ⟨hst,hub⟩ | ⟨st,hst,hub⟩ := hrow
    · rw [hst,hub]
      exact ⟨hb.admitted hadm,hb.unbound_iff ho hw hp⟩
    · rw [hst]
      exact ⟨nofun,by rw [hub,Option.some.injEq]⟩
  refine .of_clear ?_ ?_ (.inl hadm') (fun _ => hadm') ?_ ?_ ?_ ?_ hstored.1 ?_
  · unfold Clear
    rw [h.cancels]
    exact hclear
  · rw [h.counting]
    obtain ⟨hbook,-⟩ | ⟨q,hbook,-⟩ := hbook
    · rw [hbook]
      exact hspot.imp (fun hin => hin.1) fun hc => hc.1
    · rw [hbook]
      exact .inl (b.book.in_put_self j q).1
  · rw [h.counting]
    exact hb.counting
  · rw [h.counting]
    obtain ⟨hbook,-⟩ | ⟨q,-,hnew,-⟩ := hbook
    · rw [hbook]
      exact hb.new
    · exact fun hc => absurd hc hnew
  · intro q hs
    have hq := h.spot ho hw hclear hs
    rw [h.counting]
    obtain ⟨hbook,hslot⟩ | ⟨r,hbook,-,hslot⟩ := hbook
    · rw [hslot,hp] at hq
      obtain rfl := Option.some.inj hq
      rw [hbook]
      exact hspot
    · rw [hbook,hslot q hq]
      exact .inl (b.book.in_put_self j r)
  · exact (h.unbound ho hw hclear).trans hstored.2
  · intro v hv
    have hholds : b'.desk.Holds v j := by rw [Desk.Holds,hv]; rfl
    obtain rfl := holder_of_update ho hw h.worker hholds
    rw [h.worker,Function.update_self] at hv
    exact ht hv

/-- The worker lets its job go, and no other has it. -/
theorem not_holds_of_idle (ho : b.desk.Orderly) (hw : b.desk.Holds w j)
    (hworker : b'.desk.worker = Function.update b.desk.worker w .idle) (v : S) :
    ¬b'.desk.Holds v j := by
  intro hv
  obtain rfl := holder_of_update ho hw hworker hv
  rw [Desk.Holds,hworker,Function.update_self] at hv
  simp [TaskAt.job] at hv

theorem KeptAt.pushes (hb : KeptAt b j) (ho : b.desk.Orderly) (hw : b.desk.Holds w j)
    (hslot : (b.desk.worker w).slot w = some (none,.queued))
    (hub : (b.desk.worker w).unbound = true) (h : SameBooks b b' j)
    (hworker : b'.desk.worker = Function.update b.desk.worker w .idle)
    (hqueue : b'.desk.queue = b.desk.queue.pushFront j) (hleft : b'.desk.left = b.desk.left) :
    KeptAt b' j := by
  have hnot := not_holds_of_idle ho hw hworker
  refine hb.relocated ⟨h,fun _ => ((ho.tracked j).held hw).1,fun q hs => ?_,?_,fun v hv => ?_,
    fun _ => .inr ⟨w,hw⟩⟩
  · cases hs with
    | waiting => exact .held hw hslot
    | @held v _ hv => exact absurd hv (hnot v)
    | left hl hid => exact .left (hleft ▸ hl) hid
    | taken ht =>
      refine .taken (ht.imp ?_ ?_)
      · exact (h.mem_cancels (by simp)).1
      · exact (h.mem_cancels (by simp)).1
  · refine iff_of_true (.inl ?_) (.inr (.inl ⟨w,hw,hub⟩))
    rw [hqueue]
    exact List.mem_cons_self
  · exact absurd (by rw [Desk.Holds,hv]; rfl) (hnot v)

theorem KeptAt.forgets (hb : KeptAt b j) (ho : b.desk.Orderly) (hw : b.desk.worker w = .forgetting j)
    (h : SameBooks b b' j) (hworker : b'.desk.worker = Function.update b.desk.worker w .idle)
    (hqueue : b'.desk.queue = b.desk.queue.forget j) (hleft : b'.desk.left = b.desk.left) :
    KeptAt b' j := by
  have hholds : b.desk.Holds w j := by rw [Desk.Holds,hw]; rfl
  have hnot := not_holds_of_idle ho hholds hworker
  have hjobs : b'.desk.queue.jobs = b.desk.queue.jobs := by rw [hqueue]; rfl
  refine hb.relocated ⟨h,fun _ => ((ho.tracked j).held hholds).1,fun q hs => ?_,?_,fun v hv => ?_,
    fun _ => .inr ⟨w,hholds⟩⟩
  · cases hs with
    | waiting hq => exact .waiting (hjobs ▸ hq)
    | @held v _ hv => exact absurd hv (hnot v)
    | left hl hid => exact .left (hleft ▸ hl) hid
    | taken ht =>
      refine .taken (ht.imp ?_ ?_)
      · exact (h.mem_cancels (by simp)).1
      · exact (h.mem_cancels (by simp)).1
  · unfold Unbound
    rw [hjobs,h.mem_cancels (by simp)]
    refine or_congr_right (or_congr_left (iff_of_false ?_ ?_))
    · rintro ⟨v,hv,-⟩
      exact hnot v hv
    · rintro ⟨v,hv,hub⟩
      obtain rfl := (ho.tracked j).holder hholds hv
      rw [hw] at hub
      exact absurd hub (by simp [TaskAt.unbound])
  · exact absurd (by rw [Desk.Holds,hv]; rfl) (hnot v)

theorem KeptAt.leaves (hb : KeptAt b j) (ho : b.desk.Orderly) (hw : b.desk.worker w = .bound j)
    {included : Bool} (hworker : b'.desk.worker = Function.update b.desk.worker w .idle)
    (hqueue : b'.desk.queue = b.desk.queue) (hleft : b'.desk.left = ⟨j,w,included⟩ :: b.desk.left)
    (hstored : b'.desk.stored = b.desk.stored) (hcancels : b'.desk.cancels = b.desk.cancels)
    (hcounting : b'.desk.counting = b.desk.counting) (hadmitted : b'.admitted = b.admitted)
    (hbook : b'.book.In j (some w,LeftJob.bucket ⟨j,w,included⟩)) : KeptAt b' j := by
  have hholds : b.desk.Holds w j := by rw [Desk.Holds,hw]; rfl
  have hslot : (b.desk.worker w).slot w = some (some w,.inFlight) := by rw [hw]; rfl
  have hnot := not_holds_of_idle ho hholds hworker
  have hclear := hb.clear ho hholds hslot
  have hnew : j ∉ b'.desk.counting := by
    rw [hcounting]
    exact fun hc => hb.new hc (hb.in_of_held hholds hslot (by simp)).1
  have hpast : b'.desk.Past j := (ho.bound w j hw).congr (by rw [hstored])
  have hadm : j ∈ b'.admitted := by
    rw [hadmitted]
    exact hb.active (.inr ⟨w,hholds⟩)
  obtain ⟨-,hq,-,hl⟩ := (ho.tracked j).held hholds
  have hjobs : j ∉ b'.desk.queue.jobs := by
    rw [hqueue]
    exact List.count_eq_zero.1 hq
  have hclear' : b'.Clear j := by
    unfold Clear
    rwa [hcancels]
  refine .of_clear hclear' (.inl hbook.1) (.inl hadm) (fun _ => hadm) ?_ (absurd · hnew)
    (fun q hs => .inl ?_) ?_ hpast.1 fun v hv => absurd (by rw [Desk.Holds,hv]; rfl) (hnot v)
  · rw [hcounting]
    exact hb.counting
  · cases hs with
    | waiting hq => exact absurd hq hjobs
    | @held v _ hv => exact absurd hv (hnot v)
    | @left l hmem hid =>
      rw [hleft] at hmem
      obtain rfl | hmem := List.mem_cons.1 hmem
      · exact hbook
      · exact absurd (List.mem_map.2 ⟨l,hmem,hid⟩) (List.count_eq_zero.1 hl)
    | taken ht =>
      obtain ht | ht := ht
      · exact absurd ht (hclear' _ (by simp))
      · exact absurd ht (hclear' _ (by simp))
  · refine iff_of_false ?_ hpast.2
    rintro (hq | ⟨v,hv,-⟩ | hr)
    · exact hjobs hq
    · exact hnot v hv
    · exact hclear' _ (by simp) hr

end Task

end Booked

namespace Desk

variable {S : Type} [DecidableEq S] {c : DeskConfig} {s : Desk S} {w : S} {e : DeskEvent S}

/-- Only a job that its worker holds is moved. -/
theorem workerMoves_holds {j : JobId} {q : StatsSlot S} (h : s.workerMoves c w e = some (j,q)) :
    s.Holds w j := by
  unfold workerMoves at h
  unfold Holds
  split at h
  all_goals simp_all [TaskAt.job]

/-- A worker that takes its job to be queued moves it when it starts only. -/
theorem workerMoves_queued (h : s.workerMoves c w e ≠ none)
    (hslot : (s.worker w).slot w = some (none,.queued)) : ∃ v, e = .start v := by
  unfold workerMoves at h
  split at h
  all_goals simp_all [TaskAt.slot]

end Desk

end GumEngine
