import GumEngine.Webhook.Deliver

/-!
# The order in which receivers see events

A delivery is claimed only when the earlier events of its job are over, and stays so: whatever
becomes of results and leases, no receiver is told of an event before each earlier one was accepted
or given up. As long as every delivery ends within its lease, one at a time is under way for an
event, and its receiver sees the events of a job one after the other.
-/

namespace GumEngine
open Transition

/-- The earlier events of its job are over. -/
def Turn (rows : List OutboxRow) (id : Uuid) : Prop :=
  ∃ r ∈ rows, r.row.id = id ∧ ∀ e ∈ rows, e.row.jobId = r.row.jobId →
    e.row.sequence < r.row.sequence → e.isPending = false

theorem Turn.later {old new : List OutboxRow} {id : Uuid} (h : Turn old id)
    (hl : LaterRows old new) : Turn new id := by
  obtain ⟨r,hr,hid,hover⟩ := h
  obtain ⟨r',hr',hrr⟩ := hl.kept r hr
  refine ⟨r',hr',hrr.id.trans hid,fun e' he' hj hseq => ?_⟩
  rw [hrr.job] at hj
  rw [hrr.sequence] at hseq
  rcases hl.added e' he' with ⟨e,he,hee⟩ | hnew
  · exact hee.ended (hover e he (hee.job.symm.trans hj) (hee.sequence ▸ hseq))
  · exact absurd (hnew r hr hj.symm) (Nat.lt_asymm hseq)

/-- The task goes on with what it was claimed with. -/
structure DeliverTask.Goes {I : Type} (t t' : DeliverTask I) : Prop where
  number : t'.number = t.number
  d : t'.d = t.d
  claimedAt : t'.claimedAt = t.claimedAt

namespace Deliveries

variable {I : Type} [DecidableEq I]

section Steps

variable {cfg : DeliveryConfig} {env : DeliveryEnv} {s : Deliveries I} {e : DeliveryEvent I}

/-- A step leaves the table, issues one statement, or forgets a claim. -/
theorem table_step (env : DeliveryEnv) (he : s.Allowed cfg e) : (s.step cfg env e).table = s.table ∨
    (∃ d, Dispatch.Allowed s.table d ∧ (s.step cfg env e).table = s.table.step d) ∨
      ∃ i, (s.step cfg env e).table =
        { s.table with claiming := Function.update s.table.claiming i none } := by
  cases e with
  | tick n => exact Or.inl rfl
  | enqueue job event re => exact Or.inr (Or.inl ⟨.enqueue s.now job event re,he,rfl⟩)
  | begin i => exact Or.inr (Or.inl ⟨.begin i s.now,trivial,rfl⟩)
  | claim i locked answered =>
    have hclaim : (s.claim cfg i locked answered).table = s.table ∨
        (s.claim cfg i locked answered).table =
          s.table.step (.claim i locked (s.free i) cfg.lease) := by
      simp only [Deliveries.claim]
      split
      · exact Or.inl rfl
      · split <;> exact Or.inr rfl
    exact hclaim.imp id fun h => Or.inl ⟨.claim i locked (s.free i) cfg.lease,trivial,h⟩
  | acquire t now again timestamp =>
    refine Or.inl ?_
    simp only [Deliveries.step,Deliveries.acquire]
    split <;> rfl
  | defer t committed =>
    simp only [Deliveries.step]
    split
    · next wait hp =>
      cases committed with
      | true => exact Or.inr (Or.inl ⟨.defer s.now t.d.id wait,trivial,rfl⟩)
      | false => exact Or.inl rfl
    · exact Or.inl rfl
  | answer t a jitter now => exact Or.inl rfl
  | write t committed =>
    simp only [Deliveries.step]
    split
    · next o hp =>
      cases committed with
      | true =>
        obtain ⟨d,hd,hstep,-⟩ := record_step s t o
        exact Or.inr (Or.inl ⟨d,hd,hstep⟩)
      | false => exact Or.inl rfl
    · exact Or.inl rfl
  | crash i => exact Or.inr (Or.inr ⟨i,rfl⟩)

theorem table_later (env : DeliveryEnv) (hs : Dispatch.Steady s.table) (he : s.Allowed cfg e) :
    LaterRows s.table.rows (s.step cfg env e).table.rows ∧
      Dispatch.Steady (s.step cfg env e).table := by
  rcases table_step env he with h | ⟨d,hd,h⟩ | ⟨i,h⟩
  · rw [h]
    exact ⟨.refl _,hs⟩
  · rw [h]
    exact ⟨(Dispatch.step_rows hs.rows hd).1,hs.step hd⟩
  · rw [h]
    refine ⟨.refl _,hs.rows,fun j now snapshot hj => ?_⟩
    replace hj : Function.update s.table.claiming i none j = some (now,snapshot) := hj
    by_cases hij : j = i
    · rw [hij,Function.update_self] at hj
      cases hj
    · rw [Function.update_of_ne hij] at hj
      exact hs.snapshots j now snapshot hj

/-- A task was there before, or its row has just been claimed. -/
theorem tasks_step {t' : DeliverTask I} (he : s.Allowed cfg e)
    (ht' : t' ∈ (s.step cfg env e).tasks) : (∃ t ∈ s.tasks, t.Goes t') ∨
    ∃ i locked now snapshot n, ∃ r ∈ s.table.rows, e = .claim i locked true ∧
      s.table.claiming i = some (now,snapshot) ∧ r.row.id ∈ s.table.claimed i locked (s.free i) ∧
        t' = ⟨n,i,r.delivery,now,.acquiring⟩ := by
  have hstays : ∀ {t : DeliverTask I}, t ∈ s.tasks → ∃ t₀ ∈ s.tasks, t₀.Goes t :=
    fun ht => ⟨_,ht,rfl,rfl,rfl⟩
  cases e with
  | tick n => exact Or.inl (hstays ht')
  | enqueue job event re => exact Or.inl (hstays ht')
  | begin i => exact Or.inl (hstays ht')
  | claim i locked answered =>
    simp only [Deliveries.step,Deliveries.claim] at ht'
    split at ht'
    · exact Or.inl (hstays ht')
    · next now snapshot hc =>
      cases answered with
      | false => exact Or.inl (hstays ht')
      | true =>
        rcases List.mem_append.mp ht' with ht' | ht'
        · exact Or.inl (hstays ht')
        · obtain ⟨r,hr,n,-,-,rfl⟩ := mem_spawn ht'
          obtain ⟨hmem,hid⟩ := List.mem_filter.mp hr
          exact Or.inr ⟨i,locked,now,snapshot,n,r,hmem,rfl,hc,of_decide_eq_true hid,rfl⟩
  | acquire t now again timestamp =>
    refine Or.inl ?_
    simp only [Deliveries.step,Deliveries.acquire] at ht'
    split at ht'
    · rcases List.mem_cons.mp ht' with rfl | ht'
      · exact ⟨t,he.1,rfl,rfl,rfl⟩
      · exact hstays (mem_others.mp ht').1
    · rcases List.mem_cons.mp ht' with rfl | ht'
      · exact ⟨t,he.1,rfl,rfl,rfl⟩
      · exact hstays (mem_others.mp ht').1
  | defer t committed =>
    refine Or.inl ?_
    simp only [Deliveries.step] at ht'
    split at ht'
    · exact hstays (mem_others.mp ht').1
    · exact hstays ht'
  | answer t a jitter now =>
    refine Or.inl ?_
    rcases List.mem_cons.mp ht' with rfl | ht'
    · exact ⟨t,he.1,rfl,rfl,rfl⟩
    · exact hstays (mem_others.mp ht').1
  | write t committed =>
    refine Or.inl ?_
    simp only [Deliveries.step] at ht'
    split at ht'
    · cases committed with
      | true => exact hstays (mem_others.mp ht').1
      | false => exact hstays (mem_others.mp ht').1
    · exact hstays ht'
  | crash i => exact Or.inl (hstays (List.mem_filter.mp ht').1)

/-- A claim is seen by the table and the tasks alone. -/
theorem claim_frame (i : I) (locked : List Uuid) (answered : Bool) :
    (s.claim cfg i locked answered).now = s.now ∧ (s.claim cfg i locked answered).posts = s.posts ∧
      (s.claim cfg i locked answered).results = s.results := by
  simp only [Deliveries.claim]
  split
  · exact ⟨rfl,rfl,rfl⟩
  · split <;> exact ⟨rfl,rfl,rfl⟩

/-- The requests are those of before, and at most one of a task. -/
theorem posts_step (env : DeliveryEnv) (he : s.Allowed cfg e) : (s.step cfg env e).posts = s.posts ∨
    ∃ t ∈ s.tasks, ∃ timestamp, (s.step cfg env e).posts = post env t timestamp :: s.posts := by
  cases e with
  | acquire t now again timestamp =>
    simp only [Deliveries.step,Deliveries.acquire]
    split
    · exact Or.inl rfl
    · exact Or.inr ⟨t,he.1,timestamp,rfl⟩
  | claim i locked answered => exact Or.inl (claim_frame i locked answered).2.1
  | defer t committed =>
    refine Or.inl ?_
    simp only [Deliveries.step]
    split <;> rfl
  | write t committed =>
    refine Or.inl ?_
    simp only [Deliveries.step]
    split
    · cases committed <;> rfl
    · rfl
  | _ => exact Or.inl rfl

end Steps

/-! ## Without a bound on how long a delivery takes -/

section Turns

variable {cfg : DeliveryConfig} {env : DeliveryEnv} {s : Deliveries I} {e : DeliveryEvent I}

structure TakesTurns (s : Deliveries I) : Prop where
  steady : Dispatch.Steady s.table
  tasks : ∀ t ∈ s.tasks, Turn s.table.rows t.d.id
  posts : ∀ p ∈ s.posts, Turn s.table.rows p.eventId

theorem TakesTurns.step (h : TakesTurns s) (he : s.Allowed cfg e) :
    TakesTurns (s.step cfg env e) := by
  obtain ⟨hlater,hsteady⟩ := table_later env h.steady he
  refine ⟨hsteady,fun t' ht' => ?_,fun p hp => ?_⟩
  · rcases tasks_step he ht' with ⟨t,ht,hgoes⟩ | ⟨i,locked,now,snapshot,n,r,-,-,-,hid,rfl⟩
    · rw [hgoes.d]
      exact (h.tasks t ht).later hlater
    · obtain ⟨r',hr',hrid,-,hover⟩ := h.steady.claimed_next hid
      exact Turn.later ⟨r',hr',hrid,hover⟩ hlater
  · rcases posts_step env he with hposts | ⟨t,ht,timestamp,hposts⟩
    · rw [hposts] at hp
      exact (h.posts p hp).later hlater
    · rw [hposts] at hp
      rcases List.mem_cons.mp hp with rfl | hp
      · exact (h.tasks t ht).later hlater
      · exact (h.posts p hp).later hlater

omit [DecidableEq I] in
theorem TakesTurns.start (now : Int) : TakesTurns (start now : Deliveries I) :=
  ⟨.empty,fun _ ht => absurd ht List.not_mem_nil,fun _ hp => absurd hp List.not_mem_nil⟩

/-- Its receiver accepted the event, or refused it as often as is configured. -/
def Over (cfg : DeliveryConfig) (s : Deliveries I) (e : OutboxRow) : Prop :=
  (e.row.status = .delivered ∧ ∃ a ∈ s.answers, a.id = e.row.id ∧ a.ok = true) ∨
    (e.row.status = .dead ∧ cfg.maxAttempts ≤ failures s.answers e.row.id)

/-- The earlier events of the job of an event are over. -/
def InTurn (cfg : DeliveryConfig) (s : Deliveries I) (id : Uuid) : Prop :=
  ∃ r ∈ s.table.rows, r.row.id = id ∧ ∀ e ∈ s.table.rows, e.row.jobId = r.row.jobId →
    e.row.sequence < r.row.sequence → Over cfg s e

theorem Turn.inTurn {id : Uuid} (h : Turn s.table.rows id) (ha : AtLeastOnce cfg env s) :
    InTurn cfg s id := by
  obtain ⟨r,hr,hid,hover⟩ := h
  refine ⟨r,hr,hid,fun e he hj hseq => ?_⟩
  rcases Dispatch.isPending_eq_false.mp (hover e he hj hseq) with hst | hst
  · exact Or.inl ⟨hst,ha.delivered e he hst⟩
  · exact Or.inr ⟨hst,ha.dead e he hst⟩

/-- However instances, answers, lost results and crashes take turns: from the moment an event is
claimed, and for every request that was ever made, each earlier event of its job was accepted by its
receiver or given up. -/
theorem webhooks_in_turn (cfg : DeliveryConfig) (env : DeliveryEnv) {now : Int}
    (h : (machine cfg env).Reaches (start now) s) :
    (∀ t ∈ s.tasks, InTurn cfg s t.d.id) ∧ ∀ p ∈ s.posts, InTurn cfg s p.eventId := by
  have hturns : TakesTurns s := h.invariant (.start now) fun _ _ hs he => hs.step he
  have hkept : Kept cfg env s := h.invariant (.start now) fun _ _ hs he => hs.step he
  exact ⟨fun t ht => Turn.inTurn (hturns.tasks t ht) hkept.atLeastOnce,
    fun p hp => Turn.inTurn (hturns.posts p hp) hkept.atLeastOnce⟩

end Turns

/-! ## As long as every delivery ends within its lease -/

/-- No delivery is under way when its lease runs out. -/
def WithinLease (cfg : DeliveryConfig) (s : Deliveries I) : DeliveryEvent I → Prop
  | .tick n => ∀ t ∈ s.tasks, s.now+n < t.claimedAt+cfg.lease
  | .claim i _ true => ∀ c ∈ s.table.claiming i, s.now < c.1+cfg.lease
  | _ => True

/-- The attempts at a delivery that are allowed. -/
def tries (cfg : DeliveryConfig) : Nat := max 1 cfg.maxAttempts

/-- The results of successful attempts of a delivery. -/
def successes (as : List Answered) (id : Uuid) : Nat := as.countP fun a => a.id = id && a.ok

/-- A request made after another is for the same event of the job or a later one. -/
def Ahead (rows : List OutboxRow) (p q : Post) : Prop :=
  ∀ r ∈ rows, ∀ r' ∈ rows, r.row.id = p.eventId → r'.row.id = q.eventId →
    r.row.jobId = r'.row.jobId → r'.row.sequence ≤ r.row.sequence

/-- How often a delivery was tried, and how it ended. -/
structure Exact (cfg : DeliveryConfig) (results : List Answered) (r : OutboxRow) : Prop where
  pending : r.row.status = .pending → successes results r.row.id = 0 ∧ r.attempts < tries cfg
  delivered : r.row.status = .delivered → successes results r.row.id = 1
  dead : r.row.status = .dead → successes results r.row.id = 0 ∧ r.attempts = tries cfg

/-- The row of a delivery under way is its own. -/
structure HeldRow (cfg : DeliveryConfig) (t : DeliverTask I) (r : OutboxRow) : Prop where
  pending : r.row.status = .pending
  attempts : r.attempts = t.d.attempts
  leased : t.claimedAt+cfg.lease ≤ r.nextAttemptAt

structure Exclusive (cfg : DeliveryConfig) (s : Deliveries I) : Prop where
  begun : ∀ i, ∀ c ∈ s.table.claiming i, c.1 ≤ s.now
  alone : (s.tasks.map (·.d.id)).Nodup
  timely : ∀ t ∈ s.tasks, s.now < t.claimedAt+cfg.lease
  held : ∀ t ∈ s.tasks, ∀ r ∈ s.table.rows, r.row.id = t.d.id → HeldRow cfg t r
  rows : ∀ r ∈ s.table.rows, Exact cfg s.results r
  order : s.posts.Pairwise (Ahead s.table.rows)

section Rows

variable {cfg : DeliveryConfig} {env : DeliveryEnv} {s : Deliveries I} {e : DeliveryEvent I}

theorem now_step (e : DeliveryEvent I) :
    (s.step cfg env e).now = s.now ∨ ∃ n, e = .tick n := by
  cases e with
  | tick n => exact Or.inr ⟨n,rfl⟩
  | claim i locked answered => exact Or.inl (claim_frame i locked answered).1
  | acquire t now again timestamp =>
    refine Or.inl ?_
    simp only [Deliveries.step,Deliveries.acquire]
    split <;> rfl
  | defer t committed =>
    refine Or.inl ?_
    simp only [Deliveries.step]
    split <;> rfl
  | write t committed =>
    refine Or.inl ?_
    simp only [Deliveries.step]
    split
    · cases committed <;> rfl
    · rfl
  | _ => exact Or.inl rfl

theorem claim_rows {i : I} {now : Int} {snapshot : List OutboxRow}
    (hc : s.table.claiming i = some (now,snapshot)) (locked : List Uuid) (answered : Bool) :
    (s.claim cfg i locked answered).table.rows =
      lease now cfg.lease (s.table.claimed i locked (s.free i)) s.table.rows := by
  have hrows : (s.table.step (.claim i locked (s.free i) cfg.lease)).rows =
      lease now cfg.lease (s.table.claimed i locked (s.free i)) s.table.rows := by
    show (s.table.claim i locked (s.free i) cfg.lease).rows = _
    simp only [Dispatch.claim,hc]
  simp only [Deliveries.claim,hc]
  split <;> exact hrows

theorem claim_idle {i : I} (hc : s.table.claiming i = none) (locked : List Uuid) (answered : Bool) :
    s.claim cfg i locked answered = s := by
  simp only [Deliveries.claim,hc]

theorem claim_claiming {i : I} {c : Int × List OutboxRow} (hc : s.table.claiming i = some c)
    (locked : List Uuid) (answered : Bool) :
    (s.claim cfg i locked answered).table.claiming =
      Function.update s.table.claiming i none := by
  have hclaiming : (s.table.step (.claim i locked (s.free i) cfg.lease)).claiming =
      Function.update s.table.claiming i none := by
    show (s.table.claim i locked (s.free i) cfg.lease).claiming = _
    simp only [Dispatch.claim,hc]
  simp only [Deliveries.claim,hc]
  split <;> exact hclaiming

/-- An open claim was open before, or begins now. -/
theorem claiming_step {i : I} {c : Int × List OutboxRow}
    (hc : (s.step cfg env e).table.claiming i = some c) :
    s.table.claiming i = some c ∨ c.1 = s.now := by
  have hnone : ∀ {j : I}, Function.update s.table.claiming j none i = some c →
      s.table.claiming i = some c := by
    intro j hj
    by_cases hij : i = j
    · rw [hij,Function.update_self] at hj
      cases hj
    · rwa [Function.update_of_ne hij] at hj
  cases e with
  | begin j =>
    have hc : Function.update s.table.claiming j (some (s.now,s.table.rows)) i = some c := hc
    by_cases hij : i = j
    · rw [hij,Function.update_self,Option.some.injEq] at hc
      exact Or.inr (hc ▸ rfl)
    · rw [Function.update_of_ne hij] at hc
      exact Or.inl hc
  | claim j locked answered =>
    have hc : (s.claim cfg j locked answered).table.claiming i = some c := hc
    cases hj : s.table.claiming j with
    | none =>
      rw [claim_idle hj] at hc
      exact Or.inl hc
    | some d =>
      rw [claim_claiming hj] at hc
      exact Or.inl (hnone hc)
  | acquire t now again timestamp =>
    simp only [Deliveries.step,Deliveries.acquire] at hc
    split at hc <;> exact Or.inl hc
  | defer t committed =>
    simp only [Deliveries.step] at hc
    split at hc
    · cases committed <;> exact Or.inl hc
    · exact Or.inl hc
  | write t committed =>
    simp only [Deliveries.step] at hc
    split at hc
    · next o hp =>
      cases committed with
      | true =>
        obtain ⟨d,-,-,hclaiming⟩ := record_step s t o
        have hc : (s.record t o).claiming i = some c := hc
        rw [hclaiming] at hc
        exact Or.inl hc
      | false => exact Or.inl hc
    · exact Or.inl hc
  | crash j => exact Or.inl (hnone hc)
  | _ => exact Or.inl hc

/-- A step that records no result moves rows in time or adds one; the others record one. -/
theorem rows_step (env : DeliveryEnv) (he : s.Allowed cfg e) : ((s.step cfg env e).results = s.results ∧
    ∀ r' ∈ (s.step cfg env e).table.rows, (∃ r ∈ s.table.rows, ∃ next, r' = { r with nextAttemptAt := next }) ∨
      (r'.row.status = .pending ∧ r'.attempts = 0 ∧ r'.row.id = s.table.rows.length)) ∨
    ∃ t ∈ s.tasks, ∃ o, t.phase = .writing o ∧ s.step cfg env e = s.write t o true := by
  have hsame : ∀ r' ∈ s.table.rows, (∃ r ∈ s.table.rows, ∃ next,
      r' = { r with nextAttemptAt := next }) ∨
      (r'.row.status = .pending ∧ r'.attempts = 0 ∧ r'.row.id = s.table.rows.length) :=
    fun r' hr' => Or.inl ⟨r',hr',r'.nextAttemptAt,rfl⟩
  cases e with
  | tick n => exact Or.inl ⟨rfl,hsame⟩
  | enqueue job event re =>
    refine Or.inl ⟨rfl,fun r' hr' => ?_⟩
    rcases List.mem_append.mp hr' with hr' | hr'
    · exact hsame r' hr'
    · obtain rfl := List.mem_singleton.mp hr'
      exact Or.inr ⟨rfl,rfl,List.length_map _⟩
  | begin i => exact Or.inl ⟨rfl,hsame⟩
  | claim i locked answered =>
    refine Or.inl ⟨(claim_frame i locked answered).2.2,fun r' hr' => ?_⟩
    have hr' : r' ∈ (s.claim cfg i locked answered).table.rows := hr'
    cases hc : s.table.claiming i with
    | none =>
      rw [claim_idle hc] at hr'
      exact hsame r' hr'
    | some c =>
      rw [claim_rows hc] at hr'
      exact Or.inl (rewrite_next hr')
  | acquire t now again timestamp =>
    refine Or.inl ?_
    simp only [Deliveries.step,Deliveries.acquire]
    split
    · exact ⟨rfl,hsame⟩
    · exact ⟨rfl,hsame⟩
  | defer t committed =>
    refine Or.inl ?_
    simp only [Deliveries.step]
    split
    · cases committed with
      | true => exact ⟨rfl,fun r' hr' => Or.inl (rewrite_next hr')⟩
      | false => exact ⟨rfl,hsame⟩
    · exact ⟨rfl,hsame⟩
  | answer t a jitter now => exact Or.inl ⟨rfl,hsame⟩
  | write t committed =>
    simp only [Deliveries.step]
    split
    · next o hp =>
      cases committed with
      | true => exact Or.inr ⟨t,he.1,o,hp,rfl⟩
      | false => exact Or.inl ⟨rfl,hsame⟩
    · exact Or.inl ⟨rfl,hsame⟩
  | crash i => exact Or.inl ⟨rfl,hsame⟩

end Rows

section Exclusive

variable {cfg : DeliveryConfig} {env : DeliveryEnv} {s : Deliveries I} {e : DeliveryEvent I}
  {t t' : DeliverTask I}

omit [DecidableEq I] in
theorem spawn_ids (i : I) (claimedAt : Int) (rows : List OutboxRow) :
    (s.spawn i claimedAt rows).map (·.d.id) = rows.map (·.row.id) := by
  have hmap : (s.spawn i claimedAt rows).map (·.d.id) =
      (rows.zipIdx s.spawned).map fun p => p.1.row.id := List.map_map
  rw [hmap]
  exact (List.map_map (l := rows.zipIdx s.spawned) (f := Prod.fst) (g := fun r => r.row.id)).symm.trans
    (congrArg _ (List.zipIdx_map_fst ..))

/-- The row of an event under way. -/
theorem Kept.row_of_task (h : Kept cfg env s) (ht : t ∈ s.tasks) :
    ∃ r ∈ s.table.rows, r.row.id = t.d.id := by
  obtain ⟨r,hr,he⟩ := List.mem_map.mp (h.tasks t ht).known
  exact ⟨r,hr,congrArg Prod.fst he⟩

theorem Kept.id_lt (h : Kept cfg env s) {r : OutboxRow} (hr : r ∈ s.table.rows) :
    r.row.id < s.table.rows.length := by
  have hmem : r.row.id ∈ s.table.rows.map (·.row.id) := List.mem_map_of_mem hr
  rwa [h.numbered.ids,List.mem_range] at hmem

omit [DecidableEq I] in
/-- A delivery under way is not claimed again. -/
theorem Exclusive.not_claimed (h : Exclusive cfg s) (ht : t ∈ s.tasks) {i : I}
    {locked : List Uuid} {limit : Nat} : t.d.id ∉ s.table.claimed i locked limit := by
  intro hid
  unfold Dispatch.claimed at hid
  split at hid
  · next now snapshot hc =>
    obtain ⟨-,-,r,hr,hrid,hdue⟩ := Dispatch.mem_claim hid
    have hleased := (h.held t ht r hr hrid).leased
    have hbegun : now ≤ s.now := h.begun i (now,snapshot) hc
    have htimely := h.timely t ht
    simp only [OutboxRow.isDue,Bool.and_eq_true,decide_eq_true_eq] at hdue
    omega
  · exact absurd hid List.not_mem_nil

omit [DecidableEq I] in
/-- Tasks with one event are one task. -/
theorem Exclusive.eq_of_id (h : Exclusive cfg s) (ht : t ∈ s.tasks) (ht' : t' ∈ s.tasks)
    (hid : t.d.id = t'.d.id) : t = t' :=
  List.inj_on_of_nodup_map h.alone ht ht' hid

/-- The row of a delivery that goes on is left alone. -/
theorem Exclusive.frame (h : Exclusive cfg s) (hk : Kept cfg env s) (he : s.Allowed cfg e)
    (ht : t ∈ s.tasks) (ht' : t' ∈ (s.step cfg env e).tasks) (hg : t.Goes t') {r' : OutboxRow}
    (hr' : r' ∈ (s.step cfg env e).table.rows) (hid : r'.row.id = t.d.id) : r' ∈ s.table.rows := by
  -- A task that is over is not the one that goes on.
  have hother : ∀ {u : DeliverTask I}, u ∈ s.tasks → t' ∈ s.others u → t.d.id ≠ u.d.id := by
    intro u hu hmem heq
    obtain rfl := h.eq_of_id ht hu heq
    exact (mem_others.mp hmem).2 hg.number
  cases e with
  | enqueue job event re =>
    rcases List.mem_append.mp hr' with hr' | hr'
    · exact hr'
    · obtain rfl := List.mem_singleton.mp hr'
      obtain ⟨r,hr,hrid⟩ := hk.row_of_task ht
      have hlt := hk.id_lt hr
      rw [hrid,← hid] at hlt
      exact absurd hlt (by simp [delivery,Dispatch.deliveries])
  | claim i locked answered =>
    have hr' : r' ∈ (s.claim cfg i locked answered).table.rows := hr'
    cases hc : s.table.claiming i with
    | none => rwa [claim_idle hc] at hr'
    | some c =>
      rw [claim_rows hc] at hr'
      obtain ⟨r,hr,⟨hq,rfl⟩ | ⟨-,rfl⟩⟩ := mem_rewrite hr'
      · have hmem : r.row.id ∈ s.table.claimed i locked (s.free i) := of_decide_eq_true hq
        have hid : r.row.id = t.d.id := hid
        rw [hid] at hmem
        exact absurd hmem (h.not_claimed ht)
      · exact hr
  | defer u committed =>
    simp only [Deliveries.step] at hr' ht'
    split at hr'
    · next wait hp =>
      rw [hp] at ht'
      cases committed with
      | true =>
        obtain ⟨r,hr,⟨hq,rfl⟩ | ⟨-,rfl⟩⟩ := mem_rewrite hr'
        · simp only [Bool.and_eq_true,decide_eq_true_eq] at hq
          exact absurd (hid.symm.trans hq.1) (hother he.1 ht')
        · exact hr
      | false => exact hr'
    · exact hr'
  | write u committed =>
    simp only [Deliveries.step] at hr' ht'
    split at hr'
    · next o hp =>
      rw [hp] at ht'
      cases committed with
      | true =>
        obtain ⟨r,hr,⟨hq,hrec⟩ | ⟨-,rfl⟩⟩ := record_rows hr'
        · exact absurd (hid.symm.trans (hrec.id.trans hq)) (hother he.1 ht')
        · exact hr
      | false => exact hr'
    · exact hr'
  | acquire u now again timestamp =>
    simp only [Deliveries.step,Deliveries.acquire] at hr'
    split at hr' <;> exact hr'
  | _ => exact hr'

theorem Exclusive.step_held (h : Exclusive cfg s) (hk : Kept cfg env s) (he : s.Allowed cfg e) :
    ∀ t' ∈ (s.step cfg env e).tasks, ∀ r' ∈ (s.step cfg env e).table.rows,
      r'.row.id = t'.d.id → HeldRow cfg t' r' := by
  intro t' ht' r' hr' hid
  rcases tasks_step he ht' with ⟨t,ht,hg⟩ | ⟨i,locked,now,snapshot,n,r,hr,rfl,hc,hmem,rfl⟩
  · rw [hg.d] at hid
    have hold := h.held t ht r' (h.frame hk he ht ht' hg hr' hid) hid
    refine ⟨hold.pending,?_,?_⟩
    · rw [hg.d]
      exact hold.attempts
    · rw [hg.claimedAt]
      exact hold.leased
  · -- The row has just been leased.
    have hr' : r' ∈ (s.claim cfg i locked true).table.rows := hr'
    rw [claim_rows hc] at hr'
    have hpending := hk.claimed hr hmem
    obtain ⟨r₀,hr₀,⟨-,rfl⟩ | ⟨hq,rfl⟩⟩ := mem_rewrite hr'
    · obtain rfl := hk.numbered.eq_of_id hr₀ hr hid
      exact ⟨hpending,rfl,le_rfl⟩
    · have hid : r'.row.id = r.row.id := hid
      rw [hid,decide_eq_false_iff_not] at hq
      exact absurd hmem hq

theorem Exclusive.step_timely (h : Exclusive cfg s) (he : s.Allowed cfg e) (hw : WithinLease cfg s e) :
    ∀ t' ∈ (s.step cfg env e).tasks, (s.step cfg env e).now < t'.claimedAt+cfg.lease := by
  intro t' ht'
  rcases tasks_step he ht' with ⟨t,ht,hg⟩ | ⟨i,locked,now,snapshot,n,r,hr,rfl,hc,hmem,rfl⟩
  · rw [hg.claimedAt]
    rcases now_step e with hnow | ⟨n,rfl⟩
    · rw [hnow]
      exact h.timely t ht
    · exact hw t ht
  · simp only [Deliveries.step,Deliveries.claim,hc]
    exact hw (now,snapshot) hc

theorem Exclusive.step_begun (h : Exclusive cfg s) :
    ∀ i, ∀ c ∈ (s.step cfg env e).table.claiming i, c.1 ≤ (s.step cfg env e).now := by
  intro i c hc
  have hle : c.1 ≤ s.now := (claiming_step hc).elim (h.begun i c) le_of_eq
  rcases now_step e with hnow | ⟨n,rfl⟩
  · rwa [hnow]
  · exact hle.trans (le_add_of_nonneg_right (Int.natCast_nonneg n))

/-- The tasks after a step, but for those that have just been claimed, have different events. -/
theorem Exclusive.step_alone (h : Exclusive cfg s) (hk : Kept cfg env s) (he : s.Allowed cfg e) :
    ((s.step cfg env e).tasks.map (·.d.id)).Nodup := by
  have hothers : ∀ {u u' : DeliverTask I}, u ∈ s.tasks → u'.d = u.d →
      ((u' :: s.others u).map (·.d.id)).Nodup := by
    intro u u' hu hd
    rw [List.map_cons,List.nodup_cons]
    refine ⟨fun hmem => ?_,h.alone.sublist (List.filter_sublist.map _)⟩
    obtain ⟨v,hv,hid⟩ := List.mem_map.mp hmem
    obtain ⟨hv,hne⟩ := mem_others.mp hv
    rw [hd] at hid
    exact hne (congrArg DeliverTask.number (h.eq_of_id hv hu hid))
  cases e with
  | claim i locked answered =>
    simp only [Deliveries.step,Deliveries.claim]
    split
    · exact h.alone
    · next now snapshot hc =>
      split
      · rw [List.map_append,spawn_ids,List.nodup_append']
        have hnodup : (s.table.rows.map (·.row.id)).Nodup := hk.numbered.ids ▸ List.nodup_range
        refine ⟨h.alone,hnodup.sublist (List.filter_sublist.map _),fun id hid hid' => ?_⟩
        obtain ⟨t,ht,rfl⟩ := List.mem_map.mp hid
        obtain ⟨r,hr,hrid⟩ := List.mem_map.mp hid'
        have hmem := of_decide_eq_true (List.mem_filter.mp hr).2
        rw [hrid] at hmem
        exact h.not_claimed ht hmem
      · exact h.alone
  | acquire u now again timestamp =>
    simp only [Deliveries.step,Deliveries.acquire]
    split
    · exact hothers he.1 rfl
    · exact hothers he.1 rfl
  | defer u committed =>
    simp only [Deliveries.step]
    split
    · exact h.alone.sublist (List.filter_sublist.map _)
    · exact h.alone
  | answer u a jitter now => exact hothers he.1 rfl
  | write u committed =>
    simp only [Deliveries.step]
    split
    · cases committed with
      | true => exact h.alone.sublist (List.filter_sublist.map _)
      | false => exact h.alone.sublist (List.filter_sublist.map _)
    · exact h.alone
  | crash i => exact h.alone.sublist (List.filter_sublist.map _)
  | _ => exact h.alone

/-- A result of another event. -/
theorem Exact.other {results : List Answered} {a : Answered} {r : OutboxRow}
    (h : Exact cfg results r) (ha : a.id ≠ r.row.id) : Exact cfg (a :: results) r := by
  have hsame : successes (a :: results) r.row.id = successes results r.row.id :=
    List.countP_cons_of_neg (by simpa using fun he => absurd he ha)
  refine ⟨?_,?_,?_⟩
  · rw [hsame]
    exact h.pending
  · rw [hsame]
    exact h.delivered
  · rw [hsame]
    exact h.dead

theorem tries_of_last {attempts : Nat} (hlt : attempts < tries cfg)
    (hlast : cfg.maxAttempts ≤ attempts+1) : attempts+1 = tries cfg := by
  unfold tries at hlt ⊢
  omega

theorem lt_tries_of_again {attempts jitter : Nat} {wait : Int}
    (h : cfg.retryIn attempts jitter = some wait) : attempts+1 < tries cfg := by
  unfold DeliveryConfig.retryIn at h
  split at h
  · next hlt => exact lt_max_of_lt_right hlt
  · cases h

/-- The result of the one delivery under way for the event. -/
theorem Exact.record {results : List Answered} {r r' : OutboxRow} {o : PostOutcome} {n : Nat}
    (h : Exact cfg results r) (hp : r.row.status = .pending) (hrec : Recorded o r r')
    {attempts jitter : Nat} (hattempts : r.attempts = attempts)
    (hretry : o.retryIn = cfg.retryIn attempts jitter) :
    Exact cfg (⟨n,r.row.id,o.ok⟩ :: results) r' := by
  obtain ⟨hzero,hlt⟩ := h.pending hp
  have hid := hrec.id
  cases hok : o.ok with
  | true =>
    have hst := hrec.success hok
    have hone : successes (⟨n,r.row.id,true⟩ :: results) r'.row.id = 1 := by
      rw [hid,successes,List.countP_cons_of_pos (by simp)]
      exact congrArg (·+1) hzero
    refine ⟨fun hs => ?_,fun _ => hone,fun hs => ?_⟩
    · exact absurd (hst.symm.trans hs) (by decide)
    · exact absurd (hst.symm.trans hs) (by decide)
  | false =>
    have hsame : successes (⟨n,r.row.id,false⟩ :: results) r'.row.id = 0 := by
      rw [hid,successes,List.countP_cons_of_neg (by simp)]
      exact hzero
    cases hwait : o.retryIn with
    | some wait =>
      have hst := (hrec.again wait hok hwait).trans hp
      refine ⟨fun _ => ⟨hsame,?_⟩,fun hs => ?_,fun hs => ?_⟩
      · rw [hrec.attempts,hattempts]
        exact lt_tries_of_again (hretry.symm.trans hwait)
      · exact absurd (hst.symm.trans hs) (by decide)
      · exact absurd (hst.symm.trans hs) (by decide)
    | none =>
      have hst := hrec.last hok hwait
      refine ⟨fun hs => ?_,fun hs => ?_,fun _ => ⟨hsame,?_⟩⟩
      · exact absurd (hst.symm.trans hs) (by decide)
      · exact absurd (hst.symm.trans hs) (by decide)
      · rw [hrec.attempts]
        refine tries_of_last hlt ?_
        rw [hattempts]
        exact retryIn_eq_none.mp (hretry.symm.trans hwait)

theorem Exclusive.step_rows (h : Exclusive cfg s) (hk : Kept cfg env s) (he : s.Allowed cfg e) :
    ∀ r' ∈ (s.step cfg env e).table.rows, Exact cfg (s.step cfg env e).results r' := by
  rcases Deliveries.rows_step env he with ⟨hres,hrows⟩ | ⟨t,ht,o,hp,hstep⟩
  · intro r' hr'
    rw [hres]
    rcases hrows r' hr' with ⟨r,hr,next,rfl⟩ | ⟨hst,hzero,hid⟩
    · exact ⟨(h.rows r hr).pending,(h.rows r hr).delivered,(h.rows r hr).dead⟩
    · refine ⟨fun _ => ⟨?_,?_⟩,fun hs => ?_,fun hs => ?_⟩
      · -- Nothing was recorded of an event that is new.
        refine List.countP_eq_zero.mpr fun a ha hq => ?_
        simp only [Bool.and_eq_true,decide_eq_true_eq] at hq
        obtain ⟨r,hr,hrid⟩ := hk.row_id ha
        have heq : r.row.id = s.table.rows.length := hrid.trans (hq.1.trans hid)
        exact absurd heq (hk.id_lt hr).ne
      · rw [hzero]
        exact lt_max_of_lt_left Nat.zero_lt_one
      · exact absurd (hst.symm.trans hs) (by decide)
      · exact absurd (hst.symm.trans hs) (by decide)
  · rw [hstep]
    intro r' hr'
    show Exact cfg (⟨t.number,t.d.id,o.ok⟩ :: s.results) r'
    obtain ⟨jitter,hretry⟩ := ((hk.tasks t ht).writing o hp).2
    obtain ⟨r,hr,⟨hid,hrec⟩ | ⟨hid,rfl⟩⟩ := record_rows hr'
    · have hheld := h.held t ht r hr hid
      rw [← hid]
      exact (h.rows r hr).record hheld.pending hrec hheld.attempts hretry
    · exact (h.rows r' hr).other (Ne.symm hid)

/-- The order of two requests does not change. -/
theorem Ahead.later {old new : List OutboxRow} {p q : Post} (h : Ahead old p q)
    (hl : LaterRows old new) (hn : Dispatch.Numbered new)
    (hp : ∃ r ∈ old, r.row.id = p.eventId) (hq : ∃ r ∈ old, r.row.id = q.eventId) :
    Ahead new p q := by
  intro r' hr' x' hx' hrid hxid hj
  obtain ⟨r,hr,hid⟩ := hp
  obtain ⟨x,hx,hid'⟩ := hq
  obtain ⟨r₁,hr₁,hrr⟩ := hl.kept r hr
  obtain ⟨x₁,hx₁,hxx⟩ := hl.kept x hx
  obtain rfl : r₁ = r' := hn.eq_of_id hr₁ hr' ((hrr.id.trans hid).trans hrid.symm)
  obtain rfl : x₁ = x' := hn.eq_of_id hx₁ hx' ((hxx.id.trans hid').trans hxid.symm)
  rw [hrr.sequence,hxx.sequence]
  exact h r hr x hx hid hid' (hrr.job.symm.trans (hj.trans hxx.job))

theorem Exclusive.step_order (h : Exclusive cfg s) (hk : Kept cfg env s) (hturns : TakesTurns s)
    (he : s.Allowed cfg e) :
    (s.step cfg env e).posts.Pairwise (Ahead (s.step cfg env e).table.rows) := by
  obtain ⟨hlater,hsteady⟩ := table_later env hturns.steady he
  have hknown : ∀ p ∈ s.posts, ∃ r ∈ s.table.rows, r.row.id = p.eventId := by
    intro p hp
    obtain ⟨r,hr,hid,-⟩ := hturns.posts p hp
    exact ⟨r,hr,hid⟩
  have hold : s.posts.Pairwise (Ahead (s.step cfg env e).table.rows) :=
    h.order.imp_of_mem fun hp hq hpq => hpq.later hlater hsteady.rows (hknown _ hp) (hknown _ hq)
  rcases posts_step env he with hposts | ⟨t,ht,timestamp,hposts⟩
  · rwa [hposts]
  · rw [hposts,List.pairwise_cons]
    refine ⟨fun q hq => ?_,hold⟩
    have hahead : Ahead s.table.rows (post env t timestamp) q := by
      intro r hr x hx hrid hxid hj
      by_contra hlt
      -- A later event was asked for already, so this one should be over.
      obtain ⟨x₁,hx₁,hxid₁,hover⟩ := hturns.posts q hq
      obtain rfl := hk.numbered.eq_of_id hx₁ hx (hxid₁.trans hxid.symm)
      have hended := hover r hr hj (by omega)
      have hpending := (h.held t ht r hr hrid).pending
      simp [OutboxRow.isPending,hpending] at hended
    exact hahead.later hlater hsteady.rows (hk.row_of_task ht) (hknown q hq)

theorem Exclusive.step (h : Exclusive cfg s) (hk : Kept cfg env s) (hturns : TakesTurns s)
    (he : s.Allowed cfg e) (hw : WithinLease cfg s e) : Exclusive cfg (s.step cfg env e) :=
  ⟨h.step_begun,h.step_alone hk he,h.step_timely he hw,h.step_held hk he,h.step_rows hk he,
    h.step_order hk hturns he⟩

omit [DecidableEq I] in
theorem Exclusive.start (now : Int) : Exclusive cfg (start now : Deliveries I) where
  begun _ _ hc := nomatch hc
  alone := List.nodup_nil
  timely _ ht := absurd ht List.not_mem_nil
  held _ ht := absurd ht List.not_mem_nil
  rows _ hr := absurd hr List.not_mem_nil
  order := List.Pairwise.nil

/-- What leases are for. -/
structure OneByOne (cfg : DeliveryConfig) (s : Deliveries I) : Prop where
  /-- At most one delivery is under way for an event, and only until its result is known. -/
  alone : (s.tasks.map (·.d.id)).Nodup
  pending : ∀ t ∈ s.tasks, ∀ r ∈ s.table.rows, r.row.id = t.d.id → r.row.status = .pending
  /-- The requests for a job, the last one first. -/
  order : s.posts.Pairwise (Ahead s.table.rows)
  /-- A delivery ends with its first recorded success, or when all tries have failed. -/
  rows : ∀ r ∈ s.table.rows, Exact cfg s.results r

/-- As long as every delivery ends within its lease: one at a time is under way for an event, its
receiver is asked for the events of a job in their order, and a delivery ends exactly with the first
success that is recorded or with the last failure. -/
theorem webhooks_one_by_one (cfg : DeliveryConfig) (env : DeliveryEnv) {now : Int}
    (h : ((machine cfg env).restrict (WithinLease cfg)).Reaches (start now) s) : OneByOne cfg s := by
  have hall : Kept cfg env s ∧ TakesTurns s ∧ Exclusive cfg s :=
    h.invariant (I := fun s => Kept cfg env s ∧ TakesTurns s ∧ Exclusive cfg s)
      ⟨.start now,.start now,.start now⟩ fun _ _ ⟨hk,hturns,hs⟩ ⟨he,hw⟩ =>
        ⟨hk.step he,hturns.step he,hs.step hk hturns he hw⟩
  obtain ⟨-,-,hs⟩ := hall
  exact ⟨hs.alone,fun t ht r hr hid => (hs.held t ht r hr hid).pending,hs.order,hs.rows⟩

end Exclusive

instance (cfg : DeliveryConfig) (s : Deliveries I) : ∀ e, Decidable (WithinLease cfg s e)
  | .tick _ => inferInstanceAs (Decidable (∀ t ∈ s.tasks, _))
  | .claim _ _ true => inferInstanceAs (Decidable (∀ c ∈ _, _))
  | .claim _ _ false | .enqueue _ _ _ | .begin _ | .acquire _ _ _ _ | .defer _ _ | .answer _ _ _ _
  | .write _ _ | .crash _ => .isTrue trivial

/-- Two events of one job and two instances. The first event is refused once, by then the other
instance has nothing to claim; it delivers the first event and after it the second. -/
def twoEvents : List (DeliveryEvent Bool) :=
  let job := { JobRow.new 7 Sample.request with webhookSeq := 1 }
  let news : List (DeliveryEvent Bool) :=
    [.enqueue job .included false,.enqueue { job with webhookSeq := 2 } .confirmed false]
  let attempt (t : DeliverTask Bool) (a : PostAnswer) : List (DeliveryEvent Bool) :=
    [.acquire t 0 0 1700000000,.answer { t with phase := .posting } a 0 0,
      .write { t with phase := .writing (a.outcome retryCfg t.d.attempts 0) } true]
  match (news.foldl (step retryCfg plainEnv) (start 0)).table.rows.map OutboxRow.delivery with
  | [first,second] => news++
    [.begin true,.begin false,.claim true [] true,.claim false [] true]++
    attempt ⟨0,true,first,0,.acquiring⟩ (.response 503 "503 Service Unavailable")++
    [.tick 100000000,.begin false,.claim false [] true]++
    attempt ⟨1,false,{ first with attempts := 1 },100000000,.acquiring⟩ (.response 200 "200 OK")++
    [.begin false,.claim false [] true]++
    attempt ⟨2,false,second,100000000,.acquiring⟩ (.response 200 "200 OK")
  | _ => []

theorem webhooks_in_turn_twoEvents :
    (machine retryCfg plainEnv).Runs (start 0) twoEvents ∧
    (twoEvents.foldl (step retryCfg plainEnv) (start 0)).posts.map Post.eventId = [1,0,0] ∧
    ∀ p ∈ (twoEvents.foldl (step retryCfg plainEnv) (start 0)).posts,
      InTurn retryCfg (twoEvents.foldl (step retryCfg plainEnv) (start 0)) p.eventId := by
  have hrun : (machine retryCfg plainEnv).Runs (start 0) twoEvents := by decide +kernel
  exact ⟨hrun,by decide +kernel,(webhooks_in_turn _ _ hrun.reaches).2⟩

theorem webhooks_one_by_one_twoEvents :
    ((machine retryCfg plainEnv).restrict (WithinLease retryCfg)).Runs (start 0) twoEvents ∧
    (twoEvents.foldl (step retryCfg plainEnv) (start 0)).results.map Answered.ok = [true,true,false] ∧
    OneByOne retryCfg (twoEvents.foldl (step retryCfg plainEnv) (start 0)) := by
  have hrun : ((machine retryCfg plainEnv).restrict (WithinLease retryCfg)).Runs (start 0)
      twoEvents := by decide +kernel
  exact ⟨hrun,by decide +kernel,webhooks_one_by_one _ plainEnv hrun.reaches⟩

end Deliveries

end GumEngine
