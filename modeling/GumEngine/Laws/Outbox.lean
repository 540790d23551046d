import GumEngine.Store.Ops

/-!
# The webhook outbox

Each job's events are numbered without gaps, tell its life in order and end with it.
-/

namespace GumEngine
open Relational Transition

/-- The events of a job, oldest first. -/
def eventsOf (ds : List DeliveryRow) (id : JobId) : List DeliveryRow :=
  ds.filter fun d => d.jobId = id

/-- What the outbox promises the receiver of `j`'s webhooks. -/
structure OutboxLaw (ds : List DeliveryRow) (j : JobRow) : Prop where
  sequences : (eventsOf ds j.id).map (·.sequence) = List.range' 1 j.webhookSeq
  order : ∃ n closing, (eventsOf ds j.id).map (·.event) =
      List.replicate n .included ++ closing ∧
    (closing = [] ∨ closing = [.confirmed] ∧ 1 ≤ n ∨ closing = [.failed])
  confirmed : j.status = .confirmed ↔ ∃ d ∈ eventsOf ds j.id, d.event = .confirmed
  failed : j.status = .failed ↔ ∃ d ∈ eventsOf ds j.id, d.event = .failed
  reincluded : ∀ d ∈ eventsOf ds j.id, d.event = .included →
    (d.payload.reincluded = true ↔
      ∃ e ∈ eventsOf ds j.id, e.event = .included ∧ e.sequence < d.sequence)

/-- The event that ends a job, once it has ended. -/
def JobStatus.closing : JobStatus → List WebhookEvent
  | .confirmed => [.confirmed]
  | .failed => [.failed]
  | _ => []

theorem JobStatus.closing_of_live {st : JobStatus} (h : st.isTerminal = false) :
    st.closing = [] := by
  cases st <;> simp_all [JobStatus.closing,JobStatus.isTerminal]

/-- The inductive form of the law: the list of events is a function of the status. -/
structure Announced (ds : List DeliveryRow) (j : JobRow) : Prop where
  sequences : (eventsOf ds j.id).map (·.sequence) = List.range' 1 j.webhookSeq
  events : ∃ n, (eventsOf ds j.id).map (·.event) =
      List.replicate n .included ++ j.status.closing ∧
    (j.status = .included ∨ j.status = .confirmed → 1 ≤ n)
  reincluded : ∀ d ∈ eventsOf ds j.id, d.event = .included →
    (d.payload.reincluded = true ↔
      ∃ e ∈ eventsOf ds j.id, e.event = .included ∧ e.sequence < d.sequence)

structure Outbox (s : Store) : Prop where
  jobs : ∀ j ∈ s.jobs.rows, Announced s.webhookDeliveries j
  owned : ∀ d ∈ s.webhookDeliveries, ∃ j ∈ s.jobs.rows, j.id = d.jobId
  versions : ∀ d ∈ s.webhookDeliveries, 1 ≤ d.version

theorem mem_eventsOf {ds : List DeliveryRow} {id : JobId} {d : DeliveryRow} :
    d ∈ eventsOf ds id ↔ d ∈ ds ∧ d.jobId = id := by
  simp [eventsOf]

section Enqueue

variable {ds : List DeliveryRow} {j j' : JobRow} {event : WebhookEvent} {seq : Nat} {re : Bool}

/-- The row `enqueue` appends. -/
def delivery (ds : List DeliveryRow) (j : JobRow) (event : WebhookEvent) (seq : Nat)
    (re : Bool) : DeliveryRow where
  id := ds.length
  jobId := j.id
  event := event
  version := nextVersion ds j.id event
  sequence := seq
  url := j.request.webhookUrl
  payload := payload j event seq (re || (event = .included && nextVersion ds j.id event > 1))
  status := .pending

theorem enqueue_eq : enqueue ds j event seq re = ds ++ [delivery ds j event seq re] := rfl

theorem eventsOf_enqueue_self :
    eventsOf (enqueue ds j event seq re) j.id =
      eventsOf ds j.id ++ [delivery ds j event seq re] := by
  simp [eventsOf,enqueue_eq,delivery]

theorem eventsOf_enqueue_other {id : JobId} (h : j.id ≠ id) :
    eventsOf (enqueue ds j event seq re) id = eventsOf ds id := by
  simp [eventsOf,enqueue_eq,delivery,h]

/-- A second version exists as soon as a first was written. -/
theorem one_lt_nextVersion (hv : ∀ d ∈ ds, 1 ≤ d.version) {id : JobId} :
    1 < nextVersion ds id event ↔ ∃ d ∈ eventsOf ds id, d.event = event := by
  unfold nextVersion
  constructor
  · intro h
    by_contra hno
    have hnil : ds.filter (fun d => d.jobId = id && d.event = event) = [] := by
      rw [List.filter_eq_nil_iff]
      intro d hd hp
      have hp : d.jobId = id ∧ d.event = event := by simpa using hp
      exact hno ⟨d,mem_eventsOf.mpr ⟨hd,hp.1⟩,hp.2⟩
    rw [hnil] at h
    simp at h
  · rintro ⟨d,hd,hev⟩
    obtain ⟨hd,hid⟩ := mem_eventsOf.mp hd
    have hmem : d.version ∈
        (ds.filter fun d => d.jobId = id && d.event = event).map (·.version) :=
      List.mem_map.mpr ⟨d,List.mem_filter.mpr ⟨hd,by simp [hid,hev]⟩,rfl⟩
    have hle := List.le_max?_getD_of_mem (k := 0) hmem
    have := hv d hd
    omega

end Enqueue

section Steps

variable {ds : List DeliveryRow} {j j' : JobRow} {event : WebhookEvent}

theorem Announced.new (id : JobId) (request : JobRequest) (h : ∀ d ∈ ds, d.jobId ≠ id) :
    Announced ds (JobRow.new id request) := by
  have hnil : eventsOf ds id = [] := by
    rw [eventsOf,List.filter_eq_nil_iff]
    intro d hd hp
    exact h d hd (by simpa using hp)
  refine ⟨?_,⟨0,?_,?_⟩,?_⟩ <;> simp [JobRow.new,hnil,JobStatus.closing]

/-- A quiet change keeps id, sequence and (lack of) closing event. -/
theorem Announced.quiet (h : Announced ds j) (hq : j.Quiet j') : Announced ds j' := by
  obtain ⟨hseq,⟨n,hev,hn⟩,hre⟩ := h
  rw [← hq.id] at hseq hev hre
  refine ⟨hseq.trans (by rw [hq.seq]),⟨n,?_,?_⟩,hre⟩
  · rw [hev,JobStatus.closing_of_live hq.before,JobStatus.closing_of_live hq.after]
  · rintro (hi | hc)
    · exact hn (.inl (hq.included hi))
    · have := hq.after
      simp [hc,JobStatus.isTerminal] at this

/-- Events of other jobs do not count. -/
theorem Announced.other {seq : Nat} {re : Bool} (h : Announced ds j) (hne : j'.id ≠ j.id) :
    Announced (enqueue ds j' event seq re) j := by
  obtain ⟨hseq,hev,hre⟩ := h
  have hsame : eventsOf (enqueue ds j' event seq re) j.id = eventsOf ds j.id :=
    eventsOf_enqueue_other hne
  rw [← hsame] at hseq hev hre
  exact ⟨hseq,hev,hre⟩

theorem Announced.sequence_le (h : Announced ds j) {d : DeliveryRow}
    (hd : d ∈ eventsOf ds j.id) : d.sequence ≤ j.webhookSeq := by
  have hmem : d.sequence ∈ (eventsOf ds j.id).map (·.sequence) := List.mem_map_of_mem hd
  rw [h.sequences,List.mem_range'] at hmem
  obtain ⟨i,hi,he⟩ := hmem
  omega

/-- The events of a live job are all inclusions, so an announcement extends them. -/
theorem Announced.emits (h : Announced ds j) (hv : ∀ d ∈ ds, 1 ≤ d.version)
    (he : j.Emits event j') :
    Announced (enqueue ds j' event j'.webhookSeq false) j' := by
  have hle := fun d hd => h.sequence_le (d := d) hd
  obtain ⟨hseq,⟨n,hev,hn⟩,hre⟩ := h
  rw [← he.id] at hseq hev hre hle
  rw [JobStatus.closing_of_live he.before,List.append_nil] at hev
  have hnew : ∀ d ∈ eventsOf ds j'.id, d.sequence < j'.webhookSeq := by
    intro d hd
    have := hle d hd
    have := he.seq
    omega
  refine ⟨?_,?_,?_⟩
  · rw [eventsOf_enqueue_self,List.map_append,hseq,he.seq,List.range'_1_concat]
    simp [delivery,Nat.add_comm]
  · rw [eventsOf_enqueue_self,List.map_append,hev]
    have hafter := he.after
    cases event with
    | included =>
      refine ⟨n+1,?_,fun _ => Nat.le_add_left 1 n⟩
      simp [delivery,show j'.status = .included from hafter,JobStatus.closing,
        List.replicate_succ']
    | confirmed =>
      obtain ⟨hi,hc⟩ : j.status = .included ∧ j'.status = .confirmed := hafter
      refine ⟨n,?_,fun _ => hn (.inl hi)⟩
      simp [delivery,hc,JobStatus.closing]
    | failed =>
      have hf : j'.status = .failed := hafter
      refine ⟨n,?_,by simp [hf]⟩
      simp [delivery,hf,JobStatus.closing]
  · rw [eventsOf_enqueue_self]
    intro d hd hdev
    rcases List.mem_append.mp hd with hd | hd
    · -- an older event: the new one is not earlier than it
      rw [hre d hd hdev]
      constructor
      · rintro ⟨e,hm,hx⟩
        exact ⟨e,List.mem_append_left _ hm,hx⟩
      · rintro ⟨e,hm,hx,hlt⟩
        rcases List.mem_append.mp hm with hm | hm
        · exact ⟨e,hm,hx,hlt⟩
        · rw [List.mem_singleton.mp hm] at hlt
          have := hnew d hd
          simp only [delivery] at hlt
          omega
    · -- the new event: its version tells whether there was an earlier one
      rw [List.mem_singleton.mp hd] at hdev ⊢
      have hincl : event = .included := hdev
      subst hincl
      have hver : (delivery ds j' .included j'.webhookSeq false).payload.reincluded = true ↔
          1 < nextVersion ds j'.id .included := by
        simp [delivery,payload]
      rw [hver,one_lt_nextVersion hv]
      constructor
      · rintro ⟨e,hm,hx⟩
        exact ⟨e,List.mem_append_left _ hm,hx,hnew e hm⟩
      · rintro ⟨e,hm,hx,hlt⟩
        rcases List.mem_append.mp hm with hm | hm
        · exact ⟨e,hm,hx⟩
        · rw [List.mem_singleton.mp hm] at hlt
          exact absurd hlt (Nat.lt_irrefl _)

end Steps

variable {s s' : Store}

theorem owned_put {j j' : JobRow} {id : JobId} (mem : j ∈ s.jobs.rows) (hid : j'.id = j.id)
    (jobs : s'.jobs.rows = Keyed.put JobRow.id s.jobs.rows j j')
    (h : ∃ x ∈ s.jobs.rows, x.id = id) : ∃ x ∈ s'.jobs.rows, x.id = id := by
  obtain ⟨x,hx,rfl⟩ := h
  rw [jobs]
  by_cases hxj : x.id = j.id
  · exact ⟨j',(Keyed.mem_put s.jobs mem).mpr (.inl rfl),hid.trans hxj.symm⟩
  · exact ⟨x,(Keyed.mem_put s.jobs mem).mpr (.inr ⟨hx,hxj⟩),rfl⟩

theorem Outbox.step (h : Outbox s) (he : JobsEffect s s') : Outbox s' := by
  cases he with
  | none jobs deliveries rollup =>
    obtain ⟨hj,ho,hv⟩ := h
    rw [← jobs,← deliveries] at *
    exact ⟨hj,ho,hv⟩
  | insert id request fresh jobs deliveries rollup =>
    refine ⟨?_,?_,by rw [deliveries]; exact h.versions⟩
    · intro j hj
      rw [deliveries]
      rw [jobs] at hj
      rcases List.mem_append.mp hj with hj | hj
      · exact h.jobs j hj
      · rw [List.mem_singleton.mp hj]
        refine .new id request fun d hd hid => ?_
        obtain ⟨j,hj,hjd⟩ := h.owned d hd
        exact fresh j hj (hjd.trans hid)
    · intro d hd
      rw [deliveries] at hd
      obtain ⟨j,hj,hjd⟩ := h.owned d hd
      exact ⟨j,by rw [jobs]; exact List.mem_append_left _ hj,hjd⟩
  | quiet j j' mem move jobs deliveries rollup =>
    refine ⟨?_,?_,by rw [deliveries]; exact h.versions⟩
    · intro x hx
      rw [jobs,Keyed.mem_put s.jobs mem] at hx
      rw [deliveries]
      rcases hx with rfl | ⟨hx,-⟩
      · exact (h.jobs j mem).quiet move
      · exact h.jobs x hx
    · intro d hd
      rw [deliveries] at hd
      exact owned_put mem move.id jobs (h.owned d hd)
  | emits event j j' mem move jobs deliveries rollup =>
    refine ⟨?_,?_,?_⟩
    · intro x hx
      rw [jobs,Keyed.mem_put s.jobs mem] at hx
      rw [deliveries]
      rcases hx with rfl | ⟨hx,hne⟩
      · exact (h.jobs j mem).emits h.versions move
      · exact (h.jobs x hx).other (by rw [move.id]; exact hne.symm)
    · intro d hd
      rw [deliveries,enqueue_eq] at hd
      rcases List.mem_append.mp hd with hd | hd
      · exact owned_put mem move.id jobs (h.owned d hd)
      · rw [List.mem_singleton.mp hd]
        exact ⟨j',by rw [jobs,Keyed.mem_put s.jobs mem]; exact .inl rfl,rfl⟩
    · intro d hd
      rw [deliveries,enqueue_eq] at hd
      rcases List.mem_append.mp hd with hd | hd
      · exact h.versions d hd
      · rw [List.mem_singleton.mp hd]
        exact Nat.le_add_left 1 _

theorem Outbox.empty : Outbox Store.empty :=
  ⟨fun _ h => (by cases h),fun _ h => (by cases h),fun _ h => (by cases h)⟩

theorem Outbox.reaches (h : commits.Reaches Store.empty s) : Outbox s :=
  h.invariant .empty fun _ _ hs hop => Op.outbox_rule (fun _ _ => Outbox.step) hop hs

theorem Announced.law {ds : List DeliveryRow} {j : JobRow} (h : Announced ds j) :
    OutboxLaw ds j := by
  obtain ⟨hseq,⟨n,hev,hn⟩,hre⟩ := h
  have hmem : ∀ e, (∃ d ∈ eventsOf ds j.id, d.event = e) ↔
      e ∈ List.replicate n WebhookEvent.included ++ j.status.closing := by
    intro e
    rw [← hev,List.mem_map]
  refine ⟨hseq,⟨n,j.status.closing,hev,?_⟩,?_,?_,hre⟩
  · cases hst : j.status with
    | confirmed => exact .inr (.inl ⟨rfl,hn (.inr hst)⟩)
    | failed => exact .inr (.inr rfl)
    | _ => exact .inl rfl
  · rw [hmem]
    cases j.status <;> simp [JobStatus.closing]
  · rw [hmem]
    cases j.status <;> simp [JobStatus.closing]

/-- A terminal job is never written again, nor does it get another event. -/
theorem terminal_kept {j : JobRow} {events : List DeliveryRow} (hterm : j.status.isTerminal = true)
    (h : j ∈ s.jobs.rows ∧ eventsOf s.webhookDeliveries j.id = events) (he : JobsEffect s s') :
    j ∈ s'.jobs.rows ∧ eventsOf s'.webhookDeliveries j.id = events := by
  obtain ⟨hj,hev⟩ := h
  have hlive : ∀ x ∈ s.jobs.rows, x.status.isTerminal = false → j.id ≠ x.id := by
    intro x hx hlive hid
    rw [Keyed.eq_of_key s.jobs hj hx hid,hlive] at hterm
    cases hterm
  cases he with
  | none jobs deliveries rollup => exact ⟨jobs ▸ hj,deliveries ▸ hev⟩
  | insert id request fresh jobs deliveries rollup =>
    exact ⟨by rw [jobs]; exact List.mem_append_left _ hj,deliveries ▸ hev⟩
  | quiet x x' mem move jobs deliveries rollup =>
    refine ⟨?_,deliveries ▸ hev⟩
    rw [jobs,Keyed.mem_put s.jobs mem]
    exact .inr ⟨hj,hlive x mem move.before⟩
  | emits event x x' mem move jobs deliveries rollup =>
    have hne := hlive x mem move.before
    refine ⟨?_,?_⟩
    · rw [jobs,Keyed.mem_put s.jobs mem]
      exact .inr ⟨hj,hne⟩
    · rw [deliveries,eventsOf_enqueue_other (by rw [move.id]; exact hne.symm)]
      exact hev

/-- Every job's events obey the outbox law in every state the store can be in, and no
transaction touches a job that is confirmed or failed. -/
theorem outbox_law (h : commits.Reaches Store.empty s) :
    (∀ j ∈ s.jobs.rows, OutboxLaw s.webhookDeliveries j) ∧
    ∀ op : Op, op.FailsLive → ∀ j ∈ s.jobs.rows, j.status.isTerminal = true →
      ∃ j' ∈ (op.apply s).jobs.rows, j'.id = j.id ∧ j'.status = j.status ∧
        j'.outcome = j.outcome ∧
        eventsOf (op.apply s).webhookDeliveries j.id = eventsOf s.webhookDeliveries j.id := by
  refine ⟨fun j hj => ((Outbox.reaches h).jobs j hj).law,?_⟩
  intro op hop j hj hterm
  obtain ⟨hj',hev⟩ := Op.outbox_rule (fun _ _ => terminal_kept hterm) hop ⟨hj,rfl⟩
  exact ⟨j,hj',rfl,rfl,rfl,hev⟩

/-- A job that is included, loses its block and is included again before it confirms. -/
def reorgOps : List Op :=
  let a := Sample.attempt 3 0 .job (.job 1)
  [.insertJob 1 Sample.request,.bindAttempt 0 a .first,
    .settleInclusion a (Sample.inclusion 3 10 100) false,.demoteInclusion a,
    .settleInclusion a (Sample.inclusion 3 11 111) false,.settleConfirmation a]

theorem outbox_law_reorg :
    (∃ s, commits.Reaches Store.empty s ∧
      (∃ j ∈ s.jobs.rows, j.status = .confirmed ∧ j.webhookSeq = 3) ∧
      ∀ j ∈ s.jobs.rows, OutboxLaw s.webhookDeliveries j) := by
  have hrun : commits.Runs Store.empty reorgOps := by decide
  exact ⟨_,hrun.reaches,by decide,(outbox_law hrun.reaches).1⟩

end GumEngine
