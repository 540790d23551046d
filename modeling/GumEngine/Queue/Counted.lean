import GumEngine.Queue.Counters

/-!
# The counters of an undisturbed run

Step by step: the counters go on agreeing with the book, and every job is where the book has it.
-/

namespace GumEngine
open Transition Sorting

namespace Booked

variable {S : Type} [DecidableEq S]

/-- The step of a worker. -/
def turn (c : DeskConfig) (b : Booked S) (w : S) (e : DeskEvent S) : Booked S where
  desk := b.desk.workerStep c w e
  book :=
    match b.desk.workerMoves c w e with
    | some (j,p) => b.book.put j p
    | none => b.book
  admitted := b.admitted

variable [Fintype S]

structure Kept (b : Booked S) : Prop where
  orderly : b.desk.Orderly
  exact : ∀ p, b.desk.stats.count p = b.book.size p
  balanced : b.desk.stats.Balanced
  jobs : ∀ j, KeptAt b j

variable {c : DeskConfig} {b : Booked S} {w : S} {e : DeskEvent S} {j : JobId}

section Turn

/-- A job of bucket `p` goes to `q`, in the counters and in the book. -/
theorem Kept.counts_moved (h : Kept b) {p q : StatsSlot S} {st : Stats S} (hin : b.book.In j p)
    (hst : b.desk.stats.Moves st p q) :
    (∀ r, st.count r = (b.book.put j q).size r) ∧ st.Balanced := by
  refine ⟨fun r => ?_,hst.balanced h.balanced⟩
  have hcount := hst.count r
  have hsize := Buckets.size_put_moved hin q r
  rw [h.exact] at hcount
  omega

theorem Kept.counts_transition (h : Kept b) {p : StatsSlot S} (hin : b.book.In j p)
    (q : StatsSlot S) :
    (∀ r, (b.desk.stats.transition p q).count r = (b.book.put j q).size r) ∧
      (b.desk.stats.transition p q).Balanced := by
  refine h.counts_moved hin (Stats.transition_moves ?_ q)
  rw [h.exact]
  exact Buckets.size_pos hin

omit [Fintype S] in
theorem turn_book_none (h : b.desk.workerMoves c w e = none) : (b.turn c w e).book = b.book := by
  simp only [turn,h]

omit [Fintype S] in
theorem turn_book_some {q : StatsSlot S} (h : b.desk.workerMoves c w e = some (j,q)) :
    (b.turn c w e).book = b.book.put j q := by
  simp only [turn,h]

omit [Fintype S] in
theorem turn_eq_self (hs : b.desk.workerStep c w e = b.desk) (hm : b.desk.workerMoves c w e = none) :
    b.turn c w e = b := by
  simp only [turn,hs,hm]

/-- What a worker moves has been counted. -/
theorem Kept.in_of_moves (h : Kept b)
    (hstart : (∃ v, e = .start v) → ∀ j ∈ (b.desk.worker w).job, j ∉ b.desk.counting)
    {p : StatsSlot S} (hm : b.desk.workerMoves c w e ≠ none) (hw : b.desk.Holds w j)
    (hp : (b.desk.worker w).slot w = some p) : b.book.In j p := by
  obtain hin | ⟨hc,rfl⟩ := (h.jobs j).spot p (.held hw hp)
  · exact hin
  · exact absurd hc (hstart (Desk.workerMoves_queued hm hp) j hw)

theorem Kept.turn_counts (h : Kept b)
    (hstart : (∃ v, e = .start v) → ∀ j ∈ (b.desk.worker w).job, j ∉ b.desk.counting) :
    (∀ p, (b.turn c w e).desk.stats.count p = (b.turn c w e).book.size p) ∧
      (b.turn c w e).desk.stats.Balanced := by
  have hpos (hm : b.desk.workerMoves c w e ≠ none) :
      ∀ p ∈ (b.desk.worker w).slot w, 0 < b.desk.stats.count p := by
    intro p hp
    obtain ⟨⟨i,q⟩,hsome⟩ := Option.ne_none_iff_exists'.1 hm
    rw [h.exact]
    exact Buckets.size_pos (h.in_of_moves hstart hm (Desk.workerMoves_holds hsome) hp)
  show (∀ p, (b.desk.workerStep c w e).stats.count p = (b.turn c w e).book.size p) ∧
    (b.desk.workerStep c w e).stats.Balanced
  obtain ⟨hm,hst⟩ | ⟨i,p,q,hm,hw,hp,hst⟩ := Desk.workerStep_moves hpos
  · rw [hst,turn_book_none hm]
    exact ⟨h.exact,h.balanced⟩
  · rw [turn_book_some hm]
    exact h.counts_moved (h.in_of_moves hstart (by rw [hm]; nofun) hw hp) hst

/-- The worker goes on with its job. -/
theorem Kept.turn_keeps (h : Kept b)
    (hstart : (∃ v, e = .start v) → ∀ j ∈ (b.desk.worker w).job, j ∉ b.desk.counting)
    (hw : b.desk.Holds w j) {t : TaskAt} {p : StatsSlot S}
    (hp : (b.desk.worker w).slot w = some p) (hjob : t.job = some j) (ht : t ≠ .ending j .dropped)
    (hgo : (b.desk.workerStep c w e).worker = Function.update b.desk.worker w t ∧
      (b.desk.workerStep c w e).queue = b.desk.queue ∧
      (b.desk.workerStep c w e).left = b.desk.left)
    (hrow : (b.desk.workerStep c w e).stored = b.desk.stored ∧
        t.unbound = (b.desk.worker w).unbound ∨
      ∃ st, (b.desk.workerStep c w e).stored j = some st ∧ (t.unbound = true ↔ st = .queued))
    (hbook : b.desk.workerMoves c w e = none ∧ t.slot w = (b.desk.worker w).slot w ∨
      ∃ q, b.desk.workerMoves c w e = some (j,q) ∧ ∀ q' ∈ t.slot w, q' = q) :
    KeptAt (b.turn c w e) j := by
  obtain ⟨hworker,hqueue,hleft⟩ := hgo
  refine (h.jobs j).keeps h.orderly hw hp ⟨hworker,hjob,hqueue,hleft,(Desk.workerStep_frame ..).2,
    (Desk.workerStep_frame ..).1,rfl⟩ ht hrow ?_
  obtain ⟨hm,hslot⟩ | ⟨q,hm,hslot⟩ := hbook
  · exact .inl ⟨turn_book_none hm,hslot⟩
  · have hin := h.in_of_moves hstart (by rw [hm]; nofun) hw hp
    exact .inr ⟨q,turn_book_some hm,fun hc => (h.jobs j).new hc hin.1,hslot⟩

/-- The worker leaves its job mined or in flight. -/
theorem Kept.turn_leaves (h : Kept b) (included : Bool) (hw : b.desk.worker w = .bound j)
    (hgo : (b.desk.workerStep c w e).worker = Function.update b.desk.worker w .idle ∧
      (b.desk.workerStep c w e).queue = b.desk.queue ∧
      (b.desk.workerStep c w e).left = ⟨j,w,included⟩ :: b.desk.left ∧
      (b.desk.workerStep c w e).stored = b.desk.stored)
    (hbook : b.desk.workerMoves c w e = none ∧ included = false ∨
      b.desk.workerMoves c w e = some (j,some w,.included) ∧ included = true) :
    KeptAt (b.turn c w e) j := by
  obtain ⟨hworker,hqueue,hleft,hstored⟩ := hgo
  refine (h.jobs j).leaves h.orderly hw hworker hqueue hleft hstored (Desk.workerStep_frame ..).2
    (Desk.workerStep_frame ..).1 rfl ?_
  obtain ⟨hm,rfl⟩ | ⟨hm,rfl⟩ := hbook
  · rw [turn_book_none hm]
    exact (h.jobs j).in_of_held (w := w) (by rw [Desk.Holds,hw]; rfl) (by rw [hw]; rfl) (by simp [LeftJob.bucket])
  · rw [turn_book_some hm]
    exact b.book.in_put_self j _

omit [Fintype S] in
/-- A step of the worker that neither writes a row nor counts. -/
theorem turn_sameBooks (hstored : (b.desk.workerStep c w e).stored = b.desk.stored)
    (hm : b.desk.workerMoves c w e = none) (j : JobId) : SameBooks b (b.turn c w e) j where
  stored := congrFun hstored j
  cancels x _ := by
    show (b.desk.workerStep c w e).cancels.count (j,x) = _
    rw [(Desk.workerStep_frame ..).2]
  counting := by
    show (b.desk.workerStep c w e).counting.count j = _
    rw [(Desk.workerStep_frame ..).1]
  book p := by rw [turn_book_none hm]
  admitted := Iff.rfl

/-- A step that finds its worker elsewhere changes nothing. -/
theorem Kept.turn_same (h : Kept b) (hs : b.desk.workerStep c w e = b.desk)
    (hm : b.desk.workerMoves c w e = none) : KeptAt (b.turn c w e) j := by
  rw [turn_eq_self hs hm]
  exact h.jobs j

theorem Kept.unbound_iff (h : Kept b) {t : TaskAt} {p : StatsSlot S} (ht : b.desk.worker w = t)
    (hj : t.job = some j) (hp : t.slot w = some p) :
    t.unbound = true ↔ b.desk.stored j = some .queued := by
  subst ht
  exact (h.jobs j).unbound_iff h.orderly hj hp

/-- The worker puts its job back in front. -/
theorem Kept.turn_pushes (h : Kept b) {t : TaskAt} (ht : b.desk.worker w = t)
    (hj : t.job = some j) (hslot : t.slot w = some (none,.queued)) (hub : t.unbound = true)
    (hm : b.desk.workerMoves c w e = none)
    (hs : b.desk.workerStep c w e =
      { b.desk.goto w .idle with queue := b.desk.queue.pushFront j }) :
    KeptAt (b.turn c w e) j := by
  subst ht
  refine (h.jobs j).pushes h.orderly hj hslot hub (turn_sameBooks (by rw [hs]; rfl) hm j) ?_ ?_ ?_
  · exact congrArg Desk.worker hs
  · exact congrArg Desk.queue hs
  · show (b.desk.workerStep c w e).left = b.desk.left
    rw [hs]
    rfl

/-- From `t₀` the worker goes on as `t`. -/
theorem Kept.turn_goes (h : Kept b)
    (hstart : (∃ v, e = .start v) → ∀ j ∈ (b.desk.worker w).job, j ∉ b.desk.counting)
    {t₀ t : TaskAt} {p : StatsSlot S} {s' : Desk S} (ht : b.desk.worker w = t₀)
    (hs : b.desk.workerStep c w e = s') (hj : t₀.job = some j) (hp : t₀.slot w = some p)
    (hjob : t.job = some j) (hne : t ≠ .ending j .dropped)
    (hgo : s'.worker = Function.update b.desk.worker w t ∧ s'.queue = b.desk.queue ∧
      s'.left = b.desk.left)
    (hr : s'.stored = b.desk.stored ∧ t.unbound = t₀.unbound ∨
      ∃ st, s'.stored j = some st ∧ (t.unbound = true ↔ st = .queued))
    (hbook : b.desk.workerMoves c w e = none ∧ t.slot w = t₀.slot w ∨
      ∃ q, b.desk.workerMoves c w e = some (j,q) ∧ ∀ q' ∈ t.slot w, q' = q) :
    KeptAt (b.turn c w e) j := by
  subst ht hs
  exact h.turn_keeps hstart hj hp hjob hne hgo hr hbook

theorem Kept.turn_popped (h : Kept b)
    (hstart : (∃ v, e = .start v) → ∀ j ∈ (b.desk.worker w).job, j ∉ b.desk.counting)
    (ht : b.desk.worker w = .popped j) : KeptAt (b.turn c w e) j := by
  cases e with
  | putBack v =>
    exact h.turn_pushes ht rfl rfl rfl (by unfold Desk.workerMoves; rw [ht])
      (by unfold Desk.workerStep; rw [ht])
  | start v =>
    have hs : b.desk.workerStep c w (.start v) =
        (b.desk.goto w (.processing j)).move (none,.queued) (some w,.processing) := by
      unfold Desk.workerStep
      rw [ht]
    exact h.turn_goes hstart (t := .processing j) ht hs rfl rfl rfl (by simp) ⟨rfl,rfl,rfl⟩
      (.inl ⟨rfl,rfl⟩)
      (.inr ⟨(some w,.processing),by unfold Desk.workerMoves; rw [ht],by simp [TaskAt.slot]⟩)
  | _ => exact h.turn_same (by unfold Desk.workerStep; rw [ht]) (by unfold Desk.workerMoves; rw [ht])

theorem Kept.turn_processing (h : Kept b)
    (hstart : (∃ v, e = .start v) → ∀ j ∈ (b.desk.worker w).job, j ∉ b.desk.counting)
    (ht : b.desk.worker w = .processing j) : KeptAt (b.turn c w e) j := by
  cases e with
  | fail v =>
    -- the row is queued, as long as the worker has not bound it
    have hs : b.desk.workerStep c w (.fail v) =
        (b.desk.put j (.ended none .failed)).goto w (.ending j .failed) := by
      unfold Desk.workerStep
      rw [ht]
      exact if_pos ((h.unbound_iff ht rfl rfl).1 rfl)
    exact h.turn_goes hstart (t := .ending j .failed) ht hs rfl rfl rfl (by simp) ⟨rfl,rfl,rfl⟩
      (.inr ⟨_,Function.update_self ..,by simp [TaskAt.unbound]⟩)
      (.inl ⟨by unfold Desk.workerMoves; rw [ht],rfl⟩)
  | retry v =>
    have hs : b.desk.workerStep c w (.retry v) = b.desk.goto w (.ending j (.requeue false)) := by
      unfold Desk.workerStep
      rw [ht]
    exact h.turn_goes hstart (t := .ending j (.requeue false)) ht hs rfl rfl rfl (by simp)
      ⟨rfl,rfl,rfl⟩ (.inl ⟨rfl,rfl⟩) (.inl ⟨by unfold Desk.workerMoves; rw [ht],rfl⟩)
  | send v =>
    have hs : b.desk.workerStep c w (.send v) =
        (b.desk.goto w (.sending j)).move (some w,.processing) (some w,.inFlight) := by
      unfold Desk.workerStep
      rw [ht]
    exact h.turn_goes hstart (t := .sending j) ht hs rfl rfl rfl (by simp) ⟨rfl,rfl,rfl⟩
      (.inl ⟨rfl,rfl⟩)
      (.inr ⟨(some w,.inFlight),by unfold Desk.workerMoves; rw [ht],by simp [TaskAt.slot]⟩)
  | _ => exact h.turn_same (by unfold Desk.workerStep; rw [ht]) (by unfold Desk.workerMoves; rw [ht])

theorem Kept.turn_sending (h : Kept b)
    (hstart : (∃ v, e = .start v) → ∀ j ∈ (b.desk.worker w).job, j ∉ b.desk.counting)
    (ht : b.desk.worker w = .sending j) : KeptAt (b.turn c w e) j := by
  cases e with
  | bind v =>
    have hq := (h.unbound_iff ht rfl rfl).1 rfl
    have hs : b.desk.workerStep c w (.bind v) = (b.desk.put j (.sent w)).goto w (.bound j) := by
      unfold Desk.workerStep
      rw [ht]
      exact if_pos hq
    exact h.turn_goes hstart (t := .bound j) ht hs rfl rfl rfl (by simp) ⟨rfl,rfl,rfl⟩
      (.inr ⟨_,Function.update_self ..,by simp [TaskAt.unbound]⟩)
      (.inl ⟨by unfold Desk.workerMoves; rw [ht]; exact if_pos hq,rfl⟩)
  | notBound v =>
    have hs : b.desk.workerStep c w (.notBound v) = (b.desk.goto w
        (.ending j (.requeue false))).move (some w,.inFlight) (some w,.processing) := by
      unfold Desk.workerStep
      rw [ht]
    exact h.turn_goes hstart (t := .ending j (.requeue false)) ht hs rfl rfl rfl (by simp)
      ⟨rfl,rfl,rfl⟩ (.inl ⟨rfl,rfl⟩) (.inr ⟨(some w,.processing),by unfold Desk.workerMoves; rw [ht],
        by simp [TaskAt.slot,Disposition.bucket]⟩)
  | _ => exact h.turn_same (by unfold Desk.workerStep; rw [ht]) (by unfold Desk.workerMoves; rw [ht])

/-- A mined cancel: where inclusion is final the job has failed, elsewhere it is left. -/
theorem Kept.turn_cancelled (h : Kept b)
    (hstart : (∃ v, e = .start v) → ∀ j ∈ (b.desk.worker w).job, j ∉ b.desk.counting)
    (ht : b.desk.worker w = .bound j) {v : S} {outcome : Outcome}
    (he : e = .mined v .cancel outcome) : KeptAt (b.turn c w e) j := by
  by_cases hi : c.immediate = true
  · have hs : b.desk.workerStep c w e =
        (b.desk.goto w (.forgetting j)).move (some w,.inFlight) (some w,.failed) := by
      unfold Desk.workerStep
      rw [ht,he]
      exact if_pos hi
    exact h.turn_goes hstart (t := .forgetting j) ht hs rfl rfl rfl (by simp) ⟨rfl,rfl,rfl⟩
      (.inl ⟨rfl,rfl⟩)
      (.inr ⟨(some w,.failed),by unfold Desk.workerMoves; rw [ht,he]; simp [hi],by simp [TaskAt.slot]⟩)
  · have hs : b.desk.workerStep c w e =
        { b.desk.goto w .idle with left := ⟨j,w,false⟩ :: b.desk.left } := by
      unfold Desk.workerStep
      rw [ht,he]
      exact if_neg hi
    refine h.turn_leaves false ht ?_ (.inl ⟨by unfold Desk.workerMoves; rw [ht,he]; simp [hi],rfl⟩)
    rw [hs]
    exact ⟨rfl,rfl,rfl,rfl⟩

/-- The job's transaction is mined: where inclusion is final the job has ended, elsewhere it is
left as included. -/
theorem Kept.turn_mined (h : Kept b)
    (hstart : (∃ v, e = .start v) → ∀ j ∈ (b.desk.worker w).job, j ∉ b.desk.counting)
    (ht : b.desk.worker w = .bound j) {v : S} {purpose : AttemptPurpose} {outcome : Outcome}
    (hp : purpose ≠ .cancel) (he : e = .mined v purpose outcome) : KeptAt (b.turn c w e) j := by
  have hstep : b.desk.workerStep c w e =
      let s := b.desk.move (some w,.inFlight) (some w,.included)
      if c.immediate then
        (s.goto w (.forgetting j)).move (some w,.included) (some w,outcome.terminalBucket)
      else { s.goto w .idle with left := ⟨j,w,true⟩ :: s.left } := by
    subst he
    cases purpose with
    | cancel => exact absurd rfl hp
    | _ =>
      unfold Desk.workerStep
      rw [ht]
  have hmoves : b.desk.workerMoves c w e =
      some (j,some w,if c.immediate then outcome.terminalBucket else .included) := by
    subst he
    cases purpose with
    | cancel => exact absurd rfl hp
    | _ =>
      unfold Desk.workerMoves
      rw [ht]
  by_cases hi : c.immediate = true
  · have hs := hstep.trans (if_pos hi)
    rw [if_pos hi] at hmoves
    exact h.turn_goes hstart (t := .forgetting j) ht hs rfl rfl rfl (by simp) ⟨rfl,rfl,rfl⟩
      (.inl ⟨rfl,rfl⟩) (.inr ⟨_,hmoves,by simp [TaskAt.slot]⟩)
  · have hs := hstep.trans (if_neg hi)
    rw [if_neg hi] at hmoves
    refine h.turn_leaves true ht ?_ (.inr ⟨hmoves,rfl⟩)
    rw [hs]
    exact ⟨rfl,rfl,rfl,rfl⟩

theorem Kept.turn_bound (h : Kept b)
    (hstart : (∃ v, e = .start v) → ∀ j ∈ (b.desk.worker w).job, j ∉ b.desk.counting)
    (ht : b.desk.worker w = .bound j) : KeptAt (b.turn c w e) j := by
  cases he : e with
  | void v requeue =>
    subst he
    cases requeue with
    | true =>
      have hs : b.desk.workerStep c w (.void v true) =
          (b.desk.put j .queued).goto w (.ending j (.requeue true)) := by
        unfold Desk.workerStep
        rw [ht]
      exact h.turn_goes hstart (t := .ending j (.requeue true)) ht hs rfl rfl rfl (by simp)
        ⟨rfl,rfl,rfl⟩ (.inr ⟨_,Function.update_self ..,by simp [TaskAt.unbound]⟩)
        (.inl ⟨by unfold Desk.workerMoves; rw [ht],rfl⟩)
    | false =>
      have hs : b.desk.workerStep c w (.void v false) =
          (b.desk.put j (.ended (some w) .failed)).goto w (.ending j .failedAfterBind) := by
        unfold Desk.workerStep
        rw [ht]
      exact h.turn_goes hstart (t := .ending j .failedAfterBind) ht hs rfl rfl rfl (by simp)
        ⟨rfl,rfl,rfl⟩ (.inr ⟨_,Function.update_self ..,by simp [TaskAt.unbound]⟩)
        (.inl ⟨by unfold Desk.workerMoves; rw [ht],rfl⟩)
  | mined v purpose outcome =>
    rw [← he]
    by_cases hp : purpose = .cancel
    · exact h.turn_cancelled hstart ht (hp ▸ he)
    · exact h.turn_mined hstart ht hp he
  | leave v =>
    have hs : b.desk.workerStep c w (.leave v) =
        { b.desk.goto w .idle with left := ⟨j,w,false⟩ :: b.desk.left } := by
      unfold Desk.workerStep
      rw [ht]
    refine h.turn_leaves false ht ?_ (.inl ⟨by unfold Desk.workerMoves; rw [ht],rfl⟩)
    rw [hs]
    exact ⟨rfl,rfl,rfl,rfl⟩
  | _ => exact h.turn_same (by unfold Desk.workerStep; rw [ht]) (by unfold Desk.workerMoves; rw [ht])

/-- The counters of a disposition; a dropped job would have been someone else's. -/
theorem Kept.turn_ending (h : Kept b)
    (hstart : (∃ v, e = .start v) → ∀ j ∈ (b.desk.worker w).job, j ∉ b.desk.counting)
    {d : Disposition} (ht : b.desk.worker w = .ending j d) : KeptAt (b.turn c w e) j := by
  cases e with
  | finish v =>
    cases d with
    | failed =>
      have hs : b.desk.workerStep c w (.finish v) =
          (b.desk.goto w (.forgetting j)).move (some w,.processing) (some w,.failed) := by
        unfold Desk.workerStep
        rw [ht]
      exact h.turn_goes hstart (t := .forgetting j) ht hs rfl rfl rfl (by simp) ⟨rfl,rfl,rfl⟩
        (.inl ⟨rfl,rfl⟩)
        (.inr ⟨(some w,.failed),by unfold Desk.workerMoves; rw [ht],by simp [TaskAt.slot]⟩)
    | failedAfterBind =>
      have hs : b.desk.workerStep c w (.finish v) =
          (b.desk.goto w (.forgetting j)).move (some w,.inFlight) (some w,.failed) := by
        unfold Desk.workerStep
        rw [ht]
      exact h.turn_goes hstart (t := .forgetting j) ht hs rfl rfl rfl (by simp) ⟨rfl,rfl,rfl⟩
        (.inl ⟨rfl,rfl⟩)
        (.inr ⟨(some w,.failed),by unfold Desk.workerMoves; rw [ht],by simp [TaskAt.slot]⟩)
    | requeue afterBind =>
      have hs : b.desk.workerStep c w (.finish v) = (b.desk.goto w (.pushing j)).move
          (some w,if afterBind then .inFlight else .processing) (none,.queued) := by
        unfold Desk.workerStep
        rw [ht]
      exact h.turn_goes hstart (t := .pushing j) ht hs rfl rfl rfl (by simp) ⟨rfl,rfl,rfl⟩
        (.inl ⟨rfl,rfl⟩) (.inr ⟨(none,.queued),by unfold Desk.workerMoves; rw [ht],by simp [TaskAt.slot]⟩)
    | dropped => exact absurd ht ((h.jobs j).kept w)
  | _ =>
    exact h.turn_same (by unfold Desk.workerStep; rw [ht]; cases d <;> rfl)
      (by unfold Desk.workerMoves; rw [ht]; cases d <;> rfl)

theorem Kept.turn_forgetting (h : Kept b) (ht : b.desk.worker w = .forgetting j) :
    KeptAt (b.turn c w e) j := by
  cases e with
  | release v =>
    have hs : b.desk.workerStep c w (.release v) =
        { b.desk.goto w .idle with queue := b.desk.queue.forget j } := by
      unfold Desk.workerStep
      rw [ht]
    refine (h.jobs j).forgets h.orderly ht
      (turn_sameBooks (by rw [hs]; rfl) (by unfold Desk.workerMoves; rw [ht]) j) ?_ ?_ ?_
    · exact congrArg Desk.worker hs
    · exact congrArg Desk.queue hs
    · show (b.desk.workerStep c w (.release v)).left = b.desk.left
      rw [hs]
      rfl
  | _ => exact h.turn_same (by unfold Desk.workerStep; rw [ht]) (by unfold Desk.workerMoves; rw [ht])

theorem Kept.turn_pushing (h : Kept b) (ht : b.desk.worker w = .pushing j) :
    KeptAt (b.turn c w e) j := by
  cases e with
  | release v =>
    exact h.turn_pushes ht rfl rfl rfl (by unfold Desk.workerMoves; rw [ht])
      (by unfold Desk.workerStep; rw [ht])
  | _ => exact h.turn_same (by unfold Desk.workerStep; rw [ht]) (by unfold Desk.workerMoves; rw [ht])

/-- The job that the worker holds. -/
theorem Kept.turn_held (h : Kept b)
    (hstart : (∃ v, e = .start v) → ∀ j ∈ (b.desk.worker w).job, j ∉ b.desk.counting)
    (hw : b.desk.Holds w j) : KeptAt (b.turn c w e) j := by
  have hheld {t : TaskAt} (ht : b.desk.worker w = t) : t.job = some j := ht ▸ hw
  cases ht : b.desk.worker w with
  | idle => cases hheld ht
  | popped i =>
    obtain rfl : i = j := Option.some.inj (hheld ht)
    exact h.turn_popped hstart ht
  | processing i =>
    obtain rfl : i = j := Option.some.inj (hheld ht)
    exact h.turn_processing hstart ht
  | sending i =>
    obtain rfl : i = j := Option.some.inj (hheld ht)
    exact h.turn_sending hstart ht
  | bound i =>
    obtain rfl : i = j := Option.some.inj (hheld ht)
    exact h.turn_bound hstart ht
  | ending i d =>
    obtain rfl : i = j := Option.some.inj (hheld ht)
    exact h.turn_ending hstart ht
  | forgetting i =>
    obtain rfl : i = j := Option.some.inj (hheld ht)
    exact h.turn_forgetting ht
  | pushing i =>
    obtain rfl : i = j := Option.some.inj (hheld ht)
    exact h.turn_pushing ht

/-- A worker's step. -/
theorem Kept.turn (h : Kept b)
    (hstart : (∃ v, e = .start v) → ∀ j ∈ (b.desk.worker w).job, j ∉ b.desk.counting) :
    Kept (b.turn c w e) where
  orderly := h.orderly.task (Desk.workerStep_effect ..) (Desk.workerStep_offers ..)
  exact := (h.turn_counts hstart).1
  balanced := (h.turn_counts hstart).2
  jobs k := by
    cases hjob : (b.desk.worker w).job with
    | none =>
      have hidle : b.desk.worker w = .idle := by
        cases ht : b.desk.worker w with
        | idle => rfl
        | _ => simp [ht,TaskAt.job] at hjob
      rw [turn_eq_self (by simp [Desk.workerStep,hidle]) (by simp [Desk.workerMoves,hidle])]
      exact h.jobs k
    | some j =>
      by_cases hk : k = j
      · subst hk
        exact h.turn_held hstart hjob
      · refine (h.jobs k).same (same_of_effect (Desk.workerStep_effect ..) hjob hk
          (Desk.workerStep_frame ..).2 (Desk.workerStep_frame ..).1 (fun p => ?_) rfl)
        show (b.turn c w e).book.In k p ↔ _
        cases hm : b.desk.workerMoves c w e with
        | none => rw [turn_book_none hm]
        | some m =>
          obtain rfl : m.1 = j := Option.some.inj ((Desk.workerMoves_holds hm).symm.trans hjob)
          rw [turn_book_some hm]
          exact Buckets.in_put_of_ne hk

end Turn

section Memory

omit [DecidableEq S] in
/-- A job that is not known is with no one. -/
theorem not_active (ho : b.desk.Orderly) (hj : j ∉ b.desk.queue.known) :
    j ∉ b.desk.queue.jobs ∧ ∀ w, ¬b.desk.Holds w j := by
  have hzero : b.desk.active j = 0 := by
    by_contra hne
    exact hj ((ho.tracked j).known (Nat.pos_of_ne_zero hne))
  unfold Desk.active at hzero
  refine ⟨?_,fun w hw => ?_⟩
  · rw [← List.count_eq_zero]
    omega
  · have := Desk.holding_pos hw
    omega

omit [DecidableEq S] in
/-- So nobody takes it to be queued in the store but a cancel that has removed it. -/
theorem not_unbound (ho : b.desk.Orderly) (hj : j ∉ b.desk.queue.known)
    (hr : (j,.removed true) ∉ b.desk.cancels) : ¬Unbound b.desk j := by
  obtain ⟨hq,hw⟩ := not_active ho hj
  rintro (h | ⟨w,h,-⟩ | h)
  · exact hq h
  · exact hw w h
  · exact hr h

/-- Steps that leave rows, counters and places alone. -/
theorem Kept.frame {b' : Booked S} (h : Kept b) (ho : b'.desk.Orderly)
    (hstats : b'.desk.stats = b.desk.stats) (hbook : b'.book = b.book)
    (hjobs : ∀ k, KeptAt b' k) : Kept b' := by
  refine ⟨ho,fun p => ?_,?_,hjobs⟩
  · rw [hstats,hbook,h.exact]
  · rw [hstats]
    exact h.balanced

omit [DecidableEq S] [Fintype S] in
/-- A job that the store does not have is nowhere. -/
theorem KeptAt.absent (h : KeptAt b j) (hj : b.desk.stored j = none) :
    b.Clear j ∧ j ∉ b.book.items ∧ j ∉ b.desk.counting ∧ j ∉ b.admitted ∧
      ¬(j ∈ b.desk.queue.jobs ∨ ∃ w, b.desk.Holds w j) := by
  have hadm : j ∉ b.admitted := fun hadm => h.admitted hadm hj
  have hnone : ¬(j ∈ b.book.items ∨ b.Uncounted j) := by
    rw [h.jobs]
    rintro (ha | hp)
    · exact hadm ha
    · exact hp.1 hj
  refine ⟨fun x hx hmem => ?_,fun hin => hnone (.inl hin),fun hc => hnone (.inr (.inl hc)),hadm,
    fun ha => hadm (h.active ha)⟩
  cases x with
  | removed waiting =>
    cases waiting with
    | false => exact hx rfl
    | true =>
      have hq := h.queued (.inr (.inr hmem))
      rw [hj] at hq
      exact absurd hq nofun
  | committed waiting => exact (h.committed waiting hmem).1 hj

theorem Kept.submit (h : Kept b) (c : DeskConfig) (hj : b.desk.stored j = none) :
    Kept { b with desk := b.desk.submit c j } := by
  refine h.frame (h.orderly.submit c hj) ?_ rfl fun k => ?_
  · show (b.desk.submit c j).stats = _
    unfold Desk.submit
    split <;> rfl
  · show KeptAt { b with desk := b.desk.submit c j } k
    unfold Desk.submit
    split
    · exact h.jobs k
    · by_cases hk : k = j
      · subst hk
        obtain ⟨hclear,hitems,hcounting,hadm,hactive⟩ := (h.jobs k).absent hj
        refine .of_absent hclear hitems hcounting hadm (fun hp => hp.2 ?_) hactive
          (h.orderly.not_left (.inl hj))
        exact Function.update_self ..
      · exact (h.jobs k).same ⟨⟨Function.update_of_ne hk ..,fun _ _ => rfl,rfl,fun _ => Iff.rfl,Iff.rfl⟩,
          Iff.rfl,Iff.rfl,fun _ _ _ => Iff.rfl,fun _ _ => Iff.rfl⟩

/-- A row that is past its queue is written again. -/
theorem Kept.settle (h : Kept b) {st : StoredAt S} (hst : st ≠ .queued) (hj : b.desk.Past j) :
    Kept { b with desk := b.desk.put j st } := by
  refine h.frame ?_ rfl rfl fun k => ?_
  · exact h.orderly.frame rfl rfl rfl (fun _ => rfl) (fun _ hk => .inl hk) fun k hp =>
      Desk.put_past hst hp
  · by_cases hk : k = j
    · subst hk
      have hb := h.jobs k
      have hself : (b.desk.put k st).stored k = some st := Function.update_self ..
      have hpast : (b.desk.put k st).Past k := Desk.put_past hst hj
      refine ⟨fun p hs => ?_,fun hu => ?_,fun _ hq => absurd hq hpast.2,hb.counting,hb.new,hb.removed,
        hb.once,fun x hx => hpast,hb.alone,hb.kept,hb.active,fun _ => hpast.1,?_⟩
      · exact hb.spot p (hs.mono id rfl (fun _ _ hl => hl) id)
      · exact absurd (hb.queued hu) hj.2
      · exact hb.jobs.trans (or_congr_right (iff_of_true hj hpast))
    · exact (h.jobs k).same ⟨⟨Function.update_of_ne hk ..,fun _ _ => rfl,rfl,fun _ => Iff.rfl,Iff.rfl⟩,
        Iff.rfl,Iff.rfl,fun _ _ _ => Iff.rfl,fun _ _ => Iff.rfl⟩

/-- A row is taken in. -/
theorem Kept.admitJob (h : Kept b) (hj : j ∈ b.desk.offers)
    (hu : b.desk.queue.admits j = .queued →
      b.desk.stored j = some .queued ∧ (j,.removed true) ∉ b.desk.cancels) :
    Kept (b.step c (.admitJob j)) := by
  have ho : (b.desk.admitJob j).Orderly := h.orderly.admitJob hj
  refine h.frame ho rfl rfl fun k => ?_
  by_cases hq : b.desk.queue.admits j = .queued
  · obtain ⟨hst,hr⟩ := hu hq
    have hfresh := (JobQueue.admits_eq_queued.1 hq).1
    have hqueue : (b.desk.admitJob j).queue =
        { b.desk.queue with known := insert j b.desk.queue.known, jobs := b.desk.queue.jobs ++ [j] } :=
      JobQueue.admit_of_queued hq
    have hcounting : (b.desk.admitJob j).counting = j :: b.desk.counting := if_pos hq
    have hadmitted : (b.step c (.admitJob j)).admitted = insert j b.admitted := if_pos hq
    by_cases hk : k = j
    · subst hk
      have hb := h.jobs k
      obtain ⟨hjobs,hholds⟩ := not_active h.orderly hfresh
      have hnot := not_unbound h.orderly hfresh hr
      -- nobody has it, so it has not been counted
      have hnew : ¬(k ∈ b.book.items ∨ k ∈ b.desk.counting) := fun hin => hnot (hb.found hin hst)
      have hclear : b.Clear k := by
        intro x hx hmem
        cases x with
        | removed waiting =>
          cases waiting with
          | false => exact hx rfl
          | true => exact hr hmem
        | committed waiting => exact (hb.committed waiting hmem).2 hst
      have hadm : k ∈ (b.step c (.admitJob k)).admitted := by
        rw [hadmitted]
        exact Finset.mem_insert_self ..
      have hmem : k ∈ (b.desk.admitJob k).counting := by
        rw [hcounting]
        exact List.mem_cons_self
      refine .of_clear hclear (.inr hmem) (.inl hadm) (fun _ => hadm) ?_
        (fun _ hin => hnew (.inl hin)) (fun p hs => .inr ⟨hmem,?_⟩) (iff_of_true (.inl ?_) hst)
        (fun hnone => ?_) fun w hw => hholds w (by rw [Desk.Holds]; exact congrArg TaskAt.job hw)
      · show (b.desk.admitJob k).counting.count k ≤ 1
        rw [hcounting,List.count_cons_self,List.count_eq_zero.2 fun hc => hnew (.inr hc)]
      · cases hs with
        | waiting => rfl
        | @held w _ hw => exact absurd hw (hholds w)
        | @left l hl hid =>
          exact absurd (List.mem_map.2 ⟨l,hl,hid⟩) (h.orderly.not_left (.inr hst))
        | taken => rfl
      · show k ∈ (b.desk.admitJob k).queue.jobs
        rw [hqueue]
        simp
      · exact absurd (hst.symm.trans hnone) (by simp)
    · refine (h.jobs k).same ⟨⟨rfl,fun _ _ => rfl,?_,fun _ => Iff.rfl,?_⟩,?_,?_,fun _ _ _ => Iff.rfl,
        fun _ _ => Iff.rfl⟩
      · show (b.desk.admitJob j).counting.count k = _
        rw [hcounting,List.count_cons_of_ne (Ne.symm hk)]
      · rw [hadmitted,Finset.mem_insert]
        exact or_iff_right hk
      · show k ∈ (b.desk.admitJob j).queue.jobs ↔ _
        rw [hqueue]
        simp [hk]
      · show k ∈ (b.desk.admitJob j).queue.known ↔ _
        rw [hqueue,Finset.mem_insert]
        exact or_iff_right hk
  · obtain ⟨hjobs,hknown⟩ := JobQueue.admit_of_not_queued hq
    have hcounting : (b.desk.admitJob j).counting = b.desk.counting := if_neg hq
    have hadmitted : (b.step c (.admitJob j)).admitted = b.admitted := if_neg hq
    refine (h.jobs k).same ⟨⟨rfl,fun _ _ => rfl,?_,fun _ => Iff.rfl,by rw [hadmitted]⟩,?_,?_,
      fun _ _ _ => Iff.rfl,fun _ _ => Iff.rfl⟩
    · exact congrArg (List.count k) hcounting
    · show k ∈ (b.desk.queue.admitJob j).jobs ↔ _
      rw [hjobs]
    · show k ∈ (b.desk.queue.admitJob j).known ↔ _
      rw [hknown]

/-- A job that was taken in is counted. -/
theorem Kept.count (h : Kept b) (hj : j ∈ b.desk.counting) : Kept (b.step c (.count j)) := by
  have hb := h.jobs j
  have hnew := hb.new hj
  refine ⟨?_,fun p => ?_,h.balanced.add _,fun k => ?_⟩
  · exact h.orderly.step c (e := .count j) hj
  · show (b.desk.stats.add (none,.queued)).count p = (b.book.put j (none,.queued)).size p
    rw [Stats.count_add,Buckets.size_put_new hnew,h.exact,if_congr eq_comm rfl rfl]
  · by_cases hk : k = j
    · subst hk
      have hcount : (b.desk.counting.erase k).count k = 0 := by
        have := hb.counting
        rw [List.count_erase_self]
        omega
      have hgone : k ∉ b.desk.counting.erase k := List.count_eq_zero.1 hcount
      have hin : (b.book.put k (none,.queued)).In k (none,.queued) := b.book.in_put_self k _
      refine ⟨fun p hs => .inl ?_,hb.queued,fun _ hst => hb.found (.inr hj) hst,?_,
        fun hc => absurd hc hgone,hb.removed,hb.once,hb.committed,fun hc => ?_,hb.kept,hb.active,
        hb.admitted,?_⟩
      · obtain hold | ⟨-,rfl⟩ := hb.spot p (hs.mono id rfl (fun _ _ hl => hl) id)
        · exact absurd hold.1 hnew
        · exact hin
      · show (b.desk.counting.erase k).count k ≤ 1
        omega
      · exact absurd hj (hb.alone hc).2
      · exact iff_of_true (.inl hin.1) (hb.jobs.1 (.inr (.inl hj)))
    · refine (h.jobs k).same ⟨⟨rfl,fun _ _ => rfl,?_,fun p => Buckets.in_put_of_ne hk,Iff.rfl⟩,Iff.rfl,
        Iff.rfl,fun _ _ _ => Iff.rfl,fun _ _ => Iff.rfl⟩
      exact List.count_erase_of_ne hk

/-- A worker takes the front of the queue. -/
theorem Kept.pop (h : Kept b) (hw : b.desk.worker w = .idle) : Kept (b.step c (.pop w)) := by
  have ho : (b.desk.pop w).Orderly := h.orderly.pop hw
  show Kept ⟨b.desk.pop w,b.book,b.admitted⟩
  cases hjobs : b.desk.queue.jobs with
  | nil =>
    have hself : b.desk.pop w = b.desk := by simp [Desk.pop,JobQueue.tryPop,hjobs]
    rw [hself]
    exact h
  | cons j rest =>
    have hpop : b.desk.pop w =
        { b.desk.goto w (.popped j) with queue := { b.desk.queue with jobs := rest } } := by
      simp [Desk.pop,JobQueue.tryPop,hjobs]
    rw [hpop] at ho ⊢
    refine h.frame ho rfl rfl fun k => ?_
    have hself : Function.update b.desk.worker w (.popped j) w = .popped j :=
      Function.update_self ..
    by_cases hk : k = j
    · subst hk
      have hmem : k ∈ b.desk.queue.jobs := by
        rw [hjobs]
        exact List.mem_cons_self
      refine (h.jobs k).relocated ⟨⟨rfl,fun _ _ => rfl,rfl,fun _ => Iff.rfl,Iff.rfl⟩,id,fun p hs => ?_,
        iff_of_true ?_ (.inl hmem),fun v hv => ?_,fun _ => .inl hmem⟩
      · cases hs with
        | waiting => exact .waiting hmem
        | @held v _ hv hp =>
          by_cases hvw : v = w
          · subst hvw
            have hslot : (TaskAt.popped k).slot v = some p := hself ▸ hp
            obtain rfl := Option.some.inj hslot
            exact .waiting hmem
          · have hne : Function.update b.desk.worker w (.popped k) v = b.desk.worker v :=
              Function.update_of_ne hvw ..
            exact .held (w := v) (by rw [Desk.Holds,← hne]; exact hv) (hne ▸ hp)
        | left hl hid => exact .left hl hid
        | taken ht => exact .taken ht
      · exact .inr (.inl ⟨w,congrArg TaskAt.job hself,congrArg TaskAt.unbound hself⟩)
      · by_cases hvw : v = w
        · subst hvw
          exact absurd (hself.symm.trans hv) (by simp)
        · exact (Function.update_of_ne hvw ..).symm.trans hv
    · refine (h.jobs k).same ⟨⟨rfl,fun _ _ => rfl,rfl,fun _ => Iff.rfl,Iff.rfl⟩,?_,Iff.rfl,
        fun v t ht => ?_,fun _ _ => Iff.rfl⟩
      · rw [hjobs,List.mem_cons]
        exact (or_iff_right hk).symm
      · by_cases hvw : v = w
        · subst hvw
          refine iff_of_false ?_ ?_
          · intro heq
            obtain rfl := hself.symm.trans heq
            exact hk (Option.some.inj ht).symm
          · intro heq
            obtain rfl := hw.symm.trans heq
            simp [TaskAt.job] at ht
        · exact (Function.update_of_ne hvw (TaskAt.popped j) b.desk.worker).congr_left

end Memory

section Cancel

/-- Bookkeeping of a cancel that found the job gone. -/
theorem Kept.cancels_of_gone {l : List (JobId × CancelAt)} (h : Kept b)
    (ho : ({ b.desk with cancels := l } : Desk S).Orderly)
    (hl : ∀ k x, x ≠ .removed false → l.count (k,x) = b.desk.cancels.count (k,x)) :
    Kept { b with desk := { b.desk with cancels := l } } :=
  h.frame ho rfl rfl fun k => (h.jobs k).same ⟨⟨rfl,hl k,rfl,fun _ => Iff.rfl,Iff.rfl⟩,Iff.rfl,
    Iff.rfl,fun _ _ _ => Iff.rfl,fun _ _ => Iff.rfl⟩

/-- An operator takes a job out of memory. -/
theorem Kept.cancel (h : Kept b) (j : JobId) : Kept (b.step c (.cancel j)) := by
  have ho : (b.desk.cancel j).Orderly := h.orderly.cancel j
  show Kept ⟨b.desk.cancel j,b.book,b.admitted⟩
  by_cases hmem : j ∈ b.desk.queue.jobs
  · have hwaiting : b.desk.queue.isWaiting j = true := decide_eq_true hmem
    have hdesk : b.desk.cancel j = { b.desk with
        queue := { b.desk.queue with
          jobs := b.desk.queue.jobs.filter (· ≠ j), known := b.desk.queue.known.erase j }
        cancels := (j,.removed true) :: b.desk.cancels } := by
      simp [Desk.cancel,JobQueue.remove,hwaiting]
    rw [hdesk] at ho ⊢
    refine h.frame ho rfl rfl fun k => ?_
    by_cases hk : k = j
    · subst hk
      have hb := h.jobs k
      have hactive : 0 < b.desk.active k := Nat.add_pos_left (List.count_pos_iff.2 hmem) _
      have hclear := hb.clear_of_unbound ((h.orderly.tracked k).known hactive) (.inl hmem)
      have hcommitted (x : Bool) : (k,.committed x) ∉ (k,.removed true) :: b.desk.cancels := by
        simpa using hclear (.committed x) (by simp)
      have hnot : k ∉ b.desk.queue.jobs.filter (· ≠ k) := by simp
      refine ⟨fun p hs => ?_,fun _ => hb.queued (.inl hmem),fun _ _ => .inr (.inr List.mem_cons_self),
        hb.counting,hb.new,fun _ => Finset.notMem_erase k _,fun x hx => ?_,
        fun x hx => absurd hx (hcommitted x),fun hx => absurd hx (hcommitted false),hb.kept,
        fun ha => hb.active (ha.imp_left fun hq => absurd hq hnot),hb.admitted,?_⟩
      · cases hs with
        | waiting hq => exact absurd hq hnot
        | held hw hp => exact hb.spot p (.held hw hp)
        | left hl hid => exact hb.spot _ (.left hl hid)
        | taken => exact hb.spot _ (.waiting hmem)
      · show ((k,.removed true) :: b.desk.cancels).count (k,x) ≤ 1
        rw [List.count_cons,List.count_eq_zero.2 (hclear x hx)]
        split <;> omega
      · refine Iff.trans (or_congr_right (or_congr_right ?_)) hb.jobs
        exact iff_of_false (hcommitted false) (hclear _ (by simp))
    · refine (h.jobs k).same ⟨⟨rfl,fun x _ => ?_,rfl,fun _ => Iff.rfl,Iff.rfl⟩,?_,?_,
        fun _ _ _ => Iff.rfl,fun _ _ => Iff.rfl⟩
      · exact List.count_cons_of_ne (by simp [Ne.symm hk])
      · simp [hk]
      · simp [hk]
  · have hwaiting : b.desk.queue.isWaiting j = false := decide_eq_false hmem
    have hdesk : b.desk.cancel j =
        { b.desk with cancels := (j,.removed false) :: b.desk.cancels } := by
      simp [Desk.cancel,JobQueue.remove,hwaiting]
    rw [hdesk] at ho ⊢
    refine h.cancels_of_gone ho fun k x hx => ?_
    exact List.count_cons_of_ne (by simp [Ne.symm hx])

theorem Kept.cancelLost (h : Kept b) (j : JobId) :
    Kept { b with desk := { b.desk with cancels := b.desk.cancels.erase (j,.removed false) } } := by
  refine h.cancels_of_gone ?_ fun k x hx => ?_
  · exact h.orderly.frame rfl rfl rfl (fun _ => rfl) (fun _ hk => .inl hk) fun _ hp => hp
  · exact List.count_erase_of_ne (by simp [hx])

omit [DecidableEq S] in
/-- The row of a job that was still queued is ended. -/
theorem KeptAt.cancelStore (hb : KeptAt b j) (ho : b.desk.Orderly) {waiting : Bool}
    (hmem : (j,.removed waiting) ∈ b.desk.cancels) (hst : b.desk.stored j = some .queued)
    (hu : waiting = false → j ∉ b.desk.queue.known ∧ (j,.removed true) ∉ b.desk.cancels) :
    KeptAt { b with desk := { b.desk.put j (.ended none .failed) with
      cancels := (j,.committed waiting) :: b.desk.cancels.erase (j,.removed waiting) } } j := by
  have hunknown : j ∉ b.desk.queue.known := by
    cases waiting with
    | false => exact (hu rfl).1
    | true => exact hb.removed hmem
  obtain ⟨hjobs,hholds⟩ := not_active ho hunknown
  have hactive : ¬(j ∈ b.desk.queue.jobs ∨ ∃ w, b.desk.Holds w j) := by
    rintro (hq | ⟨w,hw⟩)
    · exact hjobs hq
    · exact hholds w hw
  -- this was the only cancel that had taken it
  have hrest : ∀ x, x ≠ .removed false → (j,x) ∉ b.desk.cancels.erase (j,.removed waiting) := by
    intro x hx hin
    cases x with
    | committed y => exact (hb.committed y (List.mem_of_mem_erase hin)).2 hst
    | removed y =>
      cases y with
      | false => exact hx rfl
      | true =>
        cases waiting with
        | false => exact (hu rfl).2 (List.mem_of_mem_erase hin)
        | true =>
          have hone := hb.once (.removed true) (by simp)
          have hpos := List.count_pos_iff.2 hin
          rw [List.count_erase_self] at hpos
          omega
  have hhead (x : CancelAt) (hx : x ≠ .removed false)
      (hin : (j,x) ∈ (j,.committed waiting) :: b.desk.cancels.erase (j,.removed waiting)) :
      x = .committed waiting := by
    obtain heq | hin := List.mem_cons.1 hin
    · exact congrArg Prod.snd heq
    · exact absurd hin (hrest x hx)
  have hpast : (b.desk.put j (.ended none .failed)).Past j := by
    unfold Desk.Past
    rw [show (b.desk.put j (.ended none .failed)).stored j = _ from Function.update_self ..]
    exact ⟨nofun,nofun⟩
  refine ⟨fun p hs => ?_,fun hub => ?_,fun _ hq => absurd hq hpast.2,hb.counting,hb.new,
    fun _ => hunknown,fun x hx => ?_,fun _ _ => hpast,fun hx => ?_,
    fun w hw => hholds w (congrArg TaskAt.job hw),fun ha => absurd ha hactive,fun _ => hpast.1,
    iff_of_true ?_ (.inr hpast)⟩
  · cases hs with
    | waiting hq => exact absurd hq hjobs
    | @held w _ hw => exact absurd hw (hholds w)
    | @left l hl hid => exact absurd (List.mem_map.2 ⟨l,hl,hid⟩) (ho.not_left (.inr hst))
    | taken ht =>
      obtain ht | ht := ht
      · exact absurd (hhead _ (by simp) ht) nofun
      · obtain rfl : true = waiting := by simpa using hhead _ (by simp) ht
        exact hb.spot _ (.taken (.inl hmem))
  · obtain hq | ⟨w,hw,-⟩ | hr := hub
    · exact absurd hq hjobs
    · exact absurd hw (hholds w)
    · exact absurd (hhead _ (by simp) hr) nofun
  · show ((j,.committed waiting) :: b.desk.cancels.erase (j,.removed waiting)).count (j,x) ≤ 1
    rw [List.count_cons,List.count_eq_zero.2 (hrest x hx)]
    split <;> omega
  · obtain rfl : false = waiting := by simpa using hhead _ (by simp) hx
    have hnot := not_unbound ho hunknown (hu rfl).2
    exact ⟨fun hin => hnot (hb.found (.inl hin) hst),fun hc => hnot (hb.found (.inr hc) hst)⟩
  · cases waiting with
    | false => exact .inr (.inr List.mem_cons_self)
    | true =>
      obtain hin | ⟨hc,-⟩ := hb.spot _ (.taken (.inl hmem))
      · exact .inl hin.1
      · exact .inr (.inl hc)

theorem Kept.cancelStore (h : Kept b) {waiting : Bool}
    (hmem : (j,.removed waiting) ∈ b.desk.cancels)
    (hu : b.desk.stored j = some .queued → waiting = false →
      j ∉ b.desk.queue.known ∧ (j,.removed true) ∉ b.desk.cancels) :
    Kept (b.step c (.cancelStore j waiting)) := by
  have ho : (b.desk.cancelStore j waiting).Orderly := h.orderly.cancelStore j waiting
  show Kept ⟨b.desk.cancelStore j waiting,b.book,b.admitted⟩
  by_cases hst : b.desk.stored j = some .queued
  · have hdesk : b.desk.cancelStore j waiting = { b.desk.put j (.ended none .failed) with
        cancels := (j,.committed waiting) :: b.desk.cancels.erase (j,.removed waiting) } :=
      if_pos hst
    rw [hdesk] at ho ⊢
    refine h.frame ho rfl rfl fun k => ?_
    by_cases hk : k = j
    · subst hk
      exact (h.jobs k).cancelStore h.orderly hmem hst (hu hst)
    · refine (h.jobs k).same ⟨⟨Function.update_of_ne hk ..,fun x _ => ?_,rfl,fun _ => Iff.rfl,Iff.rfl⟩,
        Iff.rfl,Iff.rfl,fun _ _ _ => Iff.rfl,fun _ _ => Iff.rfl⟩
      show ((j,.committed waiting) :: b.desk.cancels.erase (j,.removed waiting)).count (k,x) = _
      rw [List.count_cons_of_ne (by simp [Ne.symm hk]),List.count_erase_of_ne (by simp [hk])]
  · have hdesk : b.desk.cancelStore j waiting =
        { b.desk with cancels := b.desk.cancels.erase (j,.removed waiting) } := if_neg hst
    cases waiting with
    | false =>
      rw [hdesk]
      exact h.cancelLost j
    | true => exact absurd ((h.jobs j).queued (.inr (.inr hmem))) hst

omit [Fintype S] in
/-- A cancel that has committed is counted: a job that it took out of the queue moves, one that was
nowhere in memory is new. -/
theorem KeptAt.cancelCount (hb : KeptAt b j) {waiting : Bool}
    (hmem : (j,.committed waiting) ∈ b.desk.cancels) (hu : waiting = true → j ∉ b.desk.counting) :
    KeptAt (b.step c (.cancelCount j waiting)) j := by
  have hpast := hb.committed waiting hmem
  have hcounting : j ∉ b.desk.counting := by
    cases waiting with
    | false => exact (hb.alone hmem).2
    | true => exact hu rfl
  have hunbound : ¬Unbound b.desk j := fun hub => hpast.2 (hb.queued hub)
  have hin (p : StatsSlot S) (hs : Spot b.desk j p) : b.book.In j p :=
    (hb.spot p hs).resolve_right fun hc => hcounting hc.1
  -- nobody else counts on the job
  have helse (p : StatsSlot S) (hp : p ≠ (none,.queued)) : ¬Spot b.desk j p := by
    intro hs
    cases waiting with
    | false => exact (hb.alone hmem).1 (hin p hs).1
    | true => exact hp ((hin p hs).unique (hin _ (.taken (.inr hmem))))
  have hclear : ∀ x, x ≠ .removed false → (j,x) ∉ b.desk.cancels.erase (j,.committed waiting) := by
    intro x hx hx'
    have hold := List.mem_of_mem_erase hx'
    cases x with
    | removed y =>
      cases y with
      | false => exact hx rfl
      | true => exact hunbound (.inr (.inr hold))
    | committed y =>
      by_cases hy : y = waiting
      · subst hy
        have hone := hb.once (.committed y) (by simp)
        have hpos := List.count_pos_iff.2 hx'
        rw [List.count_erase_self] at hpos
        omega
      · -- one of the two found the job waiting and the other did not
        cases y with
        | false =>
          obtain rfl : waiting = true := by simpa using Ne.symm hy
          exact (hb.alone hold).1 (hin _ (.taken (.inr hmem))).1
        | true =>
          obtain rfl : waiting = false := by simpa using Ne.symm hy
          exact (hb.alone hmem).1 (hin _ (.taken (.inr hold))).1
  refine .of_clear hclear (.inl (b.book.in_put_self j _).1) (.inr hpast) hb.active hb.counting
    (fun hc => absurd hc hcounting) (fun p hs => ?_) (iff_of_false ?_ hpast.2) hpast.1 hb.kept
  · cases hs with
    | waiting hq => exact absurd (.inl hq) hunbound
    | @held w _ hw hp =>
      cases hub : (b.desk.worker w).unbound with
      | false => exact absurd (.held hw hp) (helse p (slot_ne_queued hub hp))
      | true => exact absurd (.inr (.inl ⟨w,hw,hub⟩)) hunbound
    | left hl hid => exact absurd (.left hl hid) (helse _ (by simp))
    | taken ht =>
      obtain ht | ht := ht
      · exact absurd ht (hclear _ (by simp))
      · exact absurd ht (hclear _ (by simp))
  · rintro (hq | hw | hr)
    · exact hunbound (.inl hq)
    · exact hunbound (.inr (.inl hw))
    · exact hclear _ (by simp) hr

theorem Kept.cancelCount (h : Kept b) {waiting : Bool}
    (hmem : (j,.committed waiting) ∈ b.desk.cancels) (hu : waiting = true → j ∉ b.desk.counting) :
    Kept (b.step c (.cancelCount j waiting)) := by
  have hb := h.jobs j
  have hcounts : (∀ p, (b.step c (.cancelCount j waiting)).desk.stats.count p =
      (b.book.put j (none,.failed)).size p) ∧ (b.step c (.cancelCount j waiting)).desk.stats.Balanced := by
    cases waiting with
    | false =>
      refine ⟨fun p => ?_,h.balanced.add _⟩
      show (b.desk.stats.add (none,.failed)).count p = _
      rw [Stats.count_add,Buckets.size_put_new (hb.alone hmem).1,h.exact,if_congr eq_comm rfl rfl]
    | true =>
      have hin := (hb.spot _ (.taken (.inr hmem))).resolve_right fun hc => hu rfl hc.1
      exact h.counts_transition hin (none,.failed)
  refine ⟨h.orderly.step c (e := .cancelCount j waiting) hmem,hcounts.1,hcounts.2,fun k => ?_⟩
  by_cases hk : k = j
  · subst hk
    exact hb.cancelCount hmem hu
  · refine (h.jobs k).same ⟨⟨rfl,fun x _ => ?_,rfl,fun p => Buckets.in_put_of_ne hk,Iff.rfl⟩,Iff.rfl,
      Iff.rfl,fun _ _ _ => Iff.rfl,fun _ _ => Iff.rfl⟩
    exact List.count_erase_of_ne (by simp [hk])

end Cancel

section Account

variable {b' : Booked S} {job : LeftJob S}

omit [DecidableEq S] [Fintype S] in
/-- A job that was left is in its bucket. -/
theorem KeptAt.in_of_left (hb : KeptAt b job.id) (hjob : job ∈ b.desk.left) :
    b.book.In job.id (some job.signer,job.bucket) :=
  (hb.spot _ (.left hjob rfl)).resolve_right fun hc => absurd hc.2 (by simp)

/-- A job that was left is accounted, and stays left if it is where it is counted now. -/
theorem KeptAt.account (hb : KeptAt b job.id) (ho : b.desk.Orderly) (hjob : job ∈ b.desk.left)
    (hstored : b'.desk.stored = b.desk.stored) (hjobs : b'.desk.queue.jobs = b.desk.queue.jobs)
    (hworker : b'.desk.worker = b.desk.worker) (hcancels : b'.desk.cancels = b.desk.cancels)
    (hcounting : b'.desk.counting = b.desk.counting) {q : StatsSlot S}
    (hbook : b'.book = b.book.put job.id q)
    (hleft : ∀ l ∈ b'.desk.left, l ∈ b.desk.left.erase job ∨ (some l.signer,l.bucket) = q) :
    KeptAt b' job.id := by
  have hin := hb.in_of_left hjob
  have hclear : b'.Clear job.id := by
    unfold Clear
    rw [hcancels]
    exact hb.clear_of_in hin (by simp)
  have hin' : b'.book.In job.id q := by
    rw [hbook]
    exact b.book.in_put_self job.id q
  have hpast : b'.desk.Past job.id :=
    (ho.left _ (List.mem_map.2 ⟨job,hjob,rfl⟩)).congr (by rw [hstored])
  have hnew : job.id ∉ b'.desk.counting := by
    rw [hcounting]
    exact fun hc => hb.new hc hin.1
  -- it was left once, and is nowhere else
  have hone := (ho.tracked job.id).once
  have herase := Desk.leftIds_erase hjob job.id
  rw [if_pos rfl] at herase
  have hactive : b.desk.active job.id = 0 := by omega
  unfold Desk.active at hactive
  have hnojob : job.id ∉ b'.desk.queue.jobs := by
    rw [hjobs,← List.count_eq_zero]
    omega
  have hnotheld (w : S) : ¬b'.desk.Holds w job.id := by
    intro hw
    rw [Desk.Holds,hworker] at hw
    have := Desk.holding_pos hw
    omega
  refine .of_clear hclear (.inl hin'.1) (.inr hpast) ?_ ?_ (fun hc => absurd hc hnew)
    (fun p hs => .inl ?_) (iff_of_false ?_ hpast.2) hpast.1
    fun w hw => hnotheld w (by rw [Desk.Holds,hw]; rfl)
  · rintro (hq | ⟨w,hw⟩)
    · exact absurd hq hnojob
    · exact absurd hw (hnotheld w)
  · rw [hcounting]
    exact hb.counting
  · cases hs with
    | waiting hq => exact absurd hq hnojob
    | @held w _ hw => exact absurd hw (hnotheld w)
    | @left l hl hid =>
      obtain hold | rfl := hleft l hl
      · have hmem : job.id ∈ (b.desk.left.erase job).map (·.id) := List.mem_map.2 ⟨l,hold,hid⟩
        have := List.count_pos_iff.2 hmem
        omega
      · exact hin'
    | taken ht =>
      obtain ht | ht := ht
      · exact absurd ht (hclear _ (by simp))
      · exact absurd ht (hclear _ (by simp))
  · rintro (hq | ⟨w,hw,-⟩ | hr)
    · exact hnojob hq
    · exact hnotheld w hw
    · exact hclear _ (by simp) hr

omit [Fintype S] in
theorem mem_left_erase {l : LeftJob S} (hl : l.id ≠ job.id) :
    l ∈ b.desk.left.erase job ↔ l ∈ b.desk.left :=
  List.mem_erase_of_ne fun heq => hl (by rw [heq])

theorem Kept.accountMoved (h : Kept b) (hjob : job ∈ b.desk.left) :
    Kept (b.step c (.accountMoved job)) := by
  have hb := h.jobs job.id
  have hin := hb.in_of_left hjob
  obtain ⟨target,htarget⟩ : ∃ t, (if job.included then Bucket.inFlight else .included) = t := ⟨_,rfl⟩
  have hdesk : b.desk.accountMoved job =
      { b.desk.move (some job.signer,job.bucket) (some job.signer,target) with
        left := { job with included := !job.included } :: b.desk.left.erase job } := by
    rw [← htarget]
    unfold Desk.accountMoved LeftJob.bucket
    cases job.included <;> rfl
  have hstep : b.step c (.accountMoved job) =
      ⟨b.desk.accountMoved job,b.book.put job.id (some job.signer,target),b.admitted⟩ := by
    rw [← htarget]
    rfl
  have hflip : LeftJob.bucket { job with included := !job.included } = target := by
    rw [← htarget]
    unfold LeftJob.bucket
    cases job.included <;> rfl
  have ho := h.orderly.accountMoved hjob
  have hcounts := h.counts_transition hin (some job.signer,target)
  rw [hstep]
  rw [hdesk] at ho ⊢
  refine ⟨ho,hcounts.1,hcounts.2,fun k => ?_⟩
  by_cases hk : k = job.id
  · subst hk
    refine hb.account h.orderly hjob rfl rfl rfl rfl rfl rfl fun l hl => ?_
    obtain rfl | hl := List.mem_cons.1 hl
    · exact .inr (by rw [hflip])
    · exact .inl hl
  · refine (h.jobs k).same ⟨⟨rfl,fun _ _ => rfl,rfl,fun p => Buckets.in_put_of_ne hk,Iff.rfl⟩,Iff.rfl,
      Iff.rfl,fun _ _ _ => Iff.rfl,fun l hl => ?_⟩
    have hne : l.id ≠ job.id := by rwa [hl]
    refine List.mem_cons.trans ((or_iff_right ?_).trans (mem_left_erase hne))
    rintro rfl
    exact hne rfl

theorem Kept.accountEnded (h : Kept b) (hjob : job ∈ b.desk.left) (outcome : Outcome) :
    Kept (b.step c (.accountEnded job outcome)) := by
  have hb := h.jobs job.id
  have hin := hb.in_of_left hjob
  obtain ⟨target,htarget⟩ :
    ∃ t, (if job.included then outcome.terminalBucket else Bucket.failed) = t := ⟨_,rfl⟩
  have hdesk : b.desk.accountEnded job outcome =
      { b.desk.move (some job.signer,job.bucket) (some job.signer,target) with
        left := b.desk.left.erase job, queue := b.desk.queue.forget job.id } := by
    rw [← htarget]
    unfold Desk.accountEnded LeftJob.bucket
    cases job.included <;> rfl
  have hstep : b.step c (.accountEnded job outcome) =
      ⟨b.desk.accountEnded job outcome,b.book.put job.id (some job.signer,target),b.admitted⟩ := by
    rw [← htarget]
    rfl
  have ho := h.orderly.accountEnded hjob outcome
  have hcounts := h.counts_transition hin (some job.signer,target)
  rw [hstep]
  rw [hdesk] at ho ⊢
  refine ⟨ho,hcounts.1,hcounts.2,fun k => ?_⟩
  by_cases hk : k = job.id
  · subst hk
    exact hb.account h.orderly hjob rfl rfl rfl rfl rfl rfl fun l hl => .inl hl
  · refine (h.jobs k).same ⟨⟨rfl,fun _ _ => rfl,rfl,fun p => Buckets.in_put_of_ne hk,Iff.rfl⟩,Iff.rfl,
      ?_,fun _ _ _ => Iff.rfl,fun l hl => mem_left_erase (by rwa [hl])⟩
    exact Finset.mem_erase.trans (and_iff_right hk)

end Account

/-- A step that disturbs nothing. -/
theorem Kept.step (h : Kept b) (he : b.desk.Allowed e) (hu : b.Undisturbed e) :
    Kept (b.step c e) := by
  cases e with
  | submit j => exact h.submit c he
  | sweep page =>
    exact h.frame (h.orderly.step c (e := .sweep page) he) rfl rfl fun k => (h.jobs k).same
      ⟨⟨rfl,fun _ _ => rfl,rfl,fun _ => Iff.rfl,Iff.rfl⟩,Iff.rfl,Iff.rfl,fun _ _ _ => Iff.rfl,
        fun _ _ => Iff.rfl⟩
  | resetOverflow =>
    exact h.frame (h.orderly.step c (e := .resetOverflow) he) rfl rfl fun k => (h.jobs k).same
      ⟨⟨rfl,fun _ _ => rfl,rfl,fun _ => Iff.rfl,Iff.rfl⟩,Iff.rfl,Iff.rfl,fun _ _ _ => Iff.rfl,
        fun _ _ => Iff.rfl⟩
  | admitJob j => exact h.admitJob he hu
  | count j => exact h.count he
  | pop w => exact h.pop he.1
  | cancel j => exact h.cancel j
  | cancelStore j waiting => exact h.cancelStore he hu
  | cancelLost j waiting =>
    obtain rfl : waiting = false := hu
    exact h.cancelLost j
  | cancelCount j waiting => exact h.cancelCount he hu
  | settle j st => exact h.settle he.1 he.2
  | accountMoved job => exact h.accountMoved he
  | accountEnded job outcome => exact h.accountEnded he outcome
  | start w => exact h.turn (w := w) fun _ => hu
  | putBack w | fail w | retry w | send w | bind w | notBound w | void w _ | mined w _ _ | leave w
  | finish w | release w => exact h.turn (w := w) fun ⟨_,hv⟩ => absurd hv nofun

/-- What a leader has rebuilt: the counters have every job that the store has past its queue in one
bucket, and a live one in the bucket of its state. -/
structure Rebuilt (stored : JobId → Option (StoredAt S)) (left : List (LeftJob S)) (stats : Stats S)
    (book : Buckets JobId (StatsSlot S)) : Prop extends Desk.Booted stored left where
  exact : ∀ p, stats.count p = book.size p
  balanced : stats.Balanced
  live : ∀ job ∈ left, book.In job.id (some job.signer,job.bucket)
  items : ∀ j, j ∈ book.items ↔ stored j ≠ none ∧ stored j ≠ some .queued

section Boot

variable {stored : JobId → Option (StoredAt S)} {left : List (LeftJob S)} {stats : Stats S}
  {book : Buckets JobId (StatsSlot S)}

theorem Kept.boot (h : Rebuilt stored left stats book) (window : Nat) :
    Kept (Booked.boot window stored left stats book) := by
  refine ⟨.boot h.toBooted window stats,h.exact,h.balanced,fun j => ?_⟩
  have hclear : (Booked.boot window stored left stats book).Clear j := fun _ _ => List.not_mem_nil
  have hactive : ¬(j ∈ ([] : List JobId) ∨ ∃ w : S, TaskAt.idle.job = some j) := by simp [TaskAt.job]
  by_cases hpast : (Booked.boot window stored left stats book).desk.Past j
  · refine .of_clear hclear (.inl ((h.items j).2 hpast)) (.inr hpast) (fun ha => absurd ha hactive)
      (Nat.zero_le 1) (fun hc => absurd hc List.not_mem_nil) (fun p hs => .inl ?_)
      (iff_of_false ?_ hpast.2) hpast.1 fun _ => by simp [Booked.boot,Desk.boot]
    · cases hs with
      | waiting hq => exact absurd (.inl hq) hactive
      | @held w _ hw => exact absurd (.inr ⟨w,hw⟩) hactive
      | @left l hl hid => exact hid ▸ h.live l hl
      | taken ht => exact absurd ht (by simp [Booked.boot,Desk.boot])
    · rintro (hq | ⟨w,hw,-⟩ | hr)
      · exact hactive (.inl hq)
      · exact hactive (.inr ⟨w,hw⟩)
      · exact absurd hr List.not_mem_nil
  · refine .of_absent hclear (fun hin => hpast ((h.items j).1 hin)) List.not_mem_nil
      (Finset.notMem_empty j) hpast hactive fun hl => hpast ?_
    obtain ⟨job,hjob,rfl⟩ := List.mem_map.1 hl
    exact h.past job hjob

theorem Kept.counted (h : Kept b) : Counted b := by
  have hsum : ∑ p, b.desk.stats.count p = b.book.items.card := by
    rw [← Buckets.sum_size]
    exact Finset.sum_congr rfl fun p _ => h.exact p
  refine ⟨h.exact,fun j p hs => ?_,hsum,?_,fun j => (h.jobs j).jobs⟩
  · exact ((h.jobs j).spot p hs).imp_right fun hc => hc.1
  · rw [← hsum,Fintype.sum_prod_type]
    exact Finset.sum_congr rfl fun o _ => h.balanced o

/-- Along every run that disturbs nothing, from whatever the leader has rebuilt. -/
theorem jobs_counted_once (c : DeskConfig) (window : Nat) (hboot : Rebuilt stored left stats book)
    {b : Booked S}
    (hb : ((machine c).restrict Undisturbed).Reaches (boot window stored left stats book) b) :
    Counted b := by
  have hkept : Kept b := hb.invariant (.boot hboot window) fun _ _ ht he => ht.step he.1 he.2
  exact hkept.counted

end Boot

/-- One job was left in flight by an earlier leader. -/
def liveStore (j : JobId) : Option (StoredAt Bool) := if j = 2 then some (.sent false) else none

def liveStats : Stats Bool where
  counts o := if o = some false then ⟨fun b => if b = .inFlight then 1 else 0,1⟩ else ⟨fun _ => 0,0⟩

def liveBook : Buckets JobId (StatsSlot Bool) := ⟨{2},fun _ => (some false,.inFlight)⟩

def liveBoot : Booked Bool := boot 4 liveStore [⟨2,false,false⟩] liveStats liveBook

theorem rebuilt_live : Rebuilt liveStore [⟨2,false,false⟩] liveStats liveBook where
  nodup := by decide
  past := by decide
  exact := by decide
  balanced := by
    unfold Stats.Balanced
    decide
  live := by
    intro job hjob
    obtain rfl := List.mem_singleton.1 hjob
    exact ⟨Finset.mem_singleton_self 2,rfl⟩
  items j := by
    by_cases hj : j = 2
    · simp [liveBook,liveStore,hj]
    · simp [liveBook,liveStore,hj]

/-- One job is mined and confirmed after an operator's cancel of it came too late, a second is
cancelled while it waits, and the one that was left is mined. -/
def unhurried : List (DeskEvent Bool) :=
  [.submit 1,.admitJob 1,.count 1,.submit 3,.admitJob 3,.pop true,.start true,.count 3,.send true,
    .cancel 3,.bind true,.cancelStore 3 true,.cancel 1,.cancelStore 1 false,.cancelCount 3 true,
    .mined true .job .success,.settle 1 (.included true),.accountMoved ⟨2,false,false⟩,
    .accountEnded ⟨1,true,true⟩ .success]

theorem jobs_counted_once_unhurried :
    ((machine ⟨5,false⟩).restrict Undisturbed).Runs liveBoot unhurried ∧
      ∑ p, (unhurried.foldl (step ⟨5,false⟩) liveBoot).desk.stats.count p = 3 := by
  have hrun : ((machine ⟨5,false⟩).restrict Undisturbed).Runs liveBoot unhurried := by decide
  have hcounted := jobs_counted_once ⟨5,false⟩ 4 rebuilt_live hrun.reaches
  have hthree : (unhurried.foldl (step ⟨5,false⟩) liveBoot).book.items.card = 3 := by decide
  exact ⟨hrun,hcounted.sum.trans hthree⟩

/-- An operator cancels a job that a worker is processing; the worker drops it at the bind. -/
def hurried : List (DeskEvent Unit) :=
  [.submit 1,.admitJob 1,.count 1,.pop (),.start (),.cancel 1,.cancelStore 1 false,
    .cancelCount 1 false,.send (),.bind (),.finish (),.release ()]

def noStats : Stats Unit := ⟨fun _ => ⟨fun _ => 0,0⟩⟩

def noBook : Buckets JobId (StatsSlot Unit) := ⟨∅,fun _ => (none,.queued)⟩

def freshBoot : Booked Unit := boot 4 (fun _ => none) [] noStats noBook

/-- The only job there is stays counted as queued and as failed. -/
theorem cancelled_counted_twice :
    Rebuilt (fun _ => none) [] noStats noBook ∧ (machine ⟨5,false⟩).Runs freshBoot hurried ∧
      (hurried.foldl (step ⟨5,false⟩) freshBoot).admitted = {1} ∧
      (∀ j, j ≠ 1 → (hurried.foldl (step ⟨5,false⟩) freshBoot).desk.stored j = none) ∧
      (hurried.foldl (step ⟨5,false⟩) freshBoot).desk.worker () = .idle ∧
      ∑ p, (hurried.foldl (step ⟨5,false⟩) freshBoot).desk.stats.count p = 2 ∧
      ¬Counted (hurried.foldl (step ⟨5,false⟩) freshBoot) := by
  have hboot : Rebuilt (fun _ => none) [] noStats noBook :=
    ⟨⟨by decide,by decide⟩,by decide,by unfold Stats.Balanced; decide,nofun,by simp [noBook]⟩
  have htwo : ∑ p, (hurried.foldl (step ⟨5,false⟩) freshBoot).desk.stats.count p = 2 := by decide
  have hone : (hurried.foldl (step ⟨5,false⟩) freshBoot).book.items.card = 1 := by decide
  refine ⟨hboot,by decide,by decide,fun j hj => ?_,by decide,htwo,fun h => ?_⟩
  · show Function.update (Function.update (fun _ => none) 1 _) 1 _ j = none
    rw [Function.update_of_ne hj,Function.update_of_ne hj]
  · have hsum := h.sum
    rw [htwo,hone] at hsum
    exact absurd hsum (by decide)

end Booked

end GumEngine
