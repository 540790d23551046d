import GumEngine.Webhook.Breaker
import GumEngine.Webhook.Dispatch
import GumEngine.Numeric.Saturating

/-!
# Delivering webhooks

`run` and `deliver` of `webhook.rs` on any number of instances, over the outbox of
`store/outbox.rs` and the breaker of each instance. A claim may commit without its answer coming
through, a result may be recorded or lost, and an instance may die with all its deliveries.
Beside the state stand the requests, what the receivers answered and what was recorded. Times are
in nanoseconds.
-/

namespace GumEngine
open Transition

structure DeliveryConfig where
  maxConcurrency : Nat
  maxPerHost : Nat
  timeoutMs : Nat
  maxAttempts : Nat
  backoffBaseMs : Nat
  backoffMaxMs : Nat
deriving DecidableEq, Repr

namespace DeliveryConfig

variable (cfg : DeliveryConfig)

/-- `Semaphore::new(cfg.max_concurrency.max(1))` -/
def permits : Nat := max cfg.maxConcurrency 1

def perHost : Nat := max cfg.maxPerHost 1

/-- A little longer than a delivery can take. -/
def lease : Int := ((cfg.timeoutMs/1000+30 : Nat) : Int)*1000000000

/-- Milliseconds; `attempt` counts the one that has just failed. -/
def backoff (attempt : Nat) : Nat :=
  min (Saturating.mul 64 cfg.backoffBaseMs (2^min attempt 20)) cfg.backoffMaxMs

/-- When to try again after the failure of an attempt, if at all. -/
def retryIn (attempts jitter : Nat) : Option Int :=
  if attempts+1 < cfg.maxAttempts then
    some (((cfg.backoff (attempts+1)/2+jitter : Nat) : Int)*1000000)
  else none

end DeliveryConfig

/-- What a delivery takes from outside: the `host:port` of a URL, the body as text and the signing
of it with the secret. -/
structure DeliveryEnv where
  host : String → String
  body : Payload → String
  signature : Int → String → String

structure Delivery where
  id : Uuid
  jobId : JobId
  event : WebhookEvent
  url : String
  payload : Payload
  attempts : Nat
deriving DecidableEq, Repr

/-- What a claim returns of a row. -/
def OutboxRow.delivery (r : OutboxRow) : Delivery :=
  ⟨r.row.id,r.row.jobId,r.row.event,r.row.url,r.row.payload,r.attempts⟩

/-- A request, with the delivery it is for. -/
structure Post where
  task : Nat
  url : String
  eventId : Uuid
  jobId : JobId
  timestamp : Int
  signature : String
  body : String
deriving DecidableEq, Repr

inductive PostAnswer
  /-- The code, and how it is shown. -/
  | response (code : Nat) (shown : String)
  | error (text : String)
deriving DecidableEq, Repr

/-- What is recorded of an attempt. -/
structure PostOutcome where
  ok : Bool
  status : Option Int
  error : String
  retryIn : Option Int
deriving DecidableEq, Repr

def PostAnswer.isSuccess : PostAnswer → Bool
  | response code _ => decide (200 ≤ code ∧ code < 300)
  | error _ => false

def PostAnswer.outcome (cfg : DeliveryConfig) (attempts jitter : Nat) (a : PostAnswer) :
    PostOutcome where
  ok := a.isSuccess
  status := match a with
    | response code _ => some code
    | error _ => none
  error := match a with
    | response _ shown => if a.isSuccess then "" else "receiver answered " ++ shown
    | error text => text
  retryIn := cfg.retryIn attempts jitter

inductive TaskPhase
  | acquiring
  | deferring (wait : Int)
  | posting
  | writing (o : PostOutcome)
deriving DecidableEq, Repr

def TaskPhase.isDeferring : TaskPhase → Bool
  | deferring _ => true
  | _ => false

def TaskPhase.isWriting : TaskPhase → Bool
  | writing _ => true
  | _ => false

/-- A spawned `deliver` of the instance `on`. -/
structure DeliverTask (I : Type) where
  number : Nat
  on : I
  d : Delivery
  claimedAt : Int
  phase : TaskPhase
deriving DecidableEq

/-- What a receiver answered to a task, or what was recorded of it. -/
structure Answered where
  task : Nat
  id : Uuid
  ok : Bool
deriving DecidableEq, Repr

structure Deliveries (I : Type) where
  now : Int
  table : Dispatch I
  /-- The permits an instance saw before its claim. -/
  free : I → Nat
  hosts : I → Hosts
  tasks : List (DeliverTask I)
  spawned : Nat
  posts : List Post
  answers : List Answered
  results : List Answered

/-- Everything but an operator's redelivery. -/
inductive DeliveryEvent (I : Type)
  | tick (n : Nat)
  | enqueue (job : JobRow) (event : WebhookEvent) (reincluded : Bool)
  | begin (i : I)
  /-- The claim commits; its answer comes through or is lost. -/
  | claim (i : I) (locked : List Uuid) (answered : Bool)
  | acquire (t : DeliverTask I) (now again : Nat) (timestamp : Int)
  | defer (t : DeliverTask I) (committed : Bool)
  | answer (t : DeliverTask I) (a : PostAnswer) (jitter now : Nat)
  | write (t : DeliverTask I) (committed : Bool)
  | crash (i : I)

namespace Deliveries

variable {I : Type} [DecidableEq I]

def start (now : Int) : Deliveries I :=
  ⟨now,.empty,fun _ => 0,fun _ => .new,[],0,[],[],[]⟩

section Steps

variable (cfg : DeliveryConfig) (env : DeliveryEnv) (s : Deliveries I)

/-- The permits in use. -/
def active (i : I) : Nat := s.tasks.countP fun t => t.on = i

/-- A task for each row that was claimed. -/
def spawn (i : I) (claimedAt : Int) (rows : List OutboxRow) : List (DeliverTask I) :=
  (rows.zipIdx s.spawned).map fun (r,n) => ⟨n,i,r.delivery,claimedAt,.acquiring⟩

def claim (i : I) (locked : List Uuid) (answered : Bool) : Deliveries I :=
  match s.table.claiming i with
  | none => s
  | some (claimedAt,_) =>
    let ids := s.table.claimed i locked (s.free i)
    let rows := s.table.rows.filter fun r => r.row.id ∈ ids
    let s' := { s with table := s.table.step (.claim i locked (s.free i) cfg.lease) }
    if answered then
      { s' with
        tasks := s.tasks++s.spawn i claimedAt rows
        spawned := s.spawned+rows.length }
    else s'

/-- The other tasks stay as they are. -/
def others (t : DeliverTask I) : List (DeliverTask I) :=
  s.tasks.filter fun u => u.number ≠ t.number

def post (t : DeliverTask I) (timestamp : Int) : Post where
  task := t.number
  url := t.d.url
  eventId := t.d.id
  jobId := t.d.jobId
  timestamp := timestamp
  signature := env.signature timestamp (env.body t.d.payload)
  body := env.body t.d.payload

/-- Not an attempt when the receiver is saturated or its breaker is open: it comes back later. -/
def acquire (t : DeliverTask I) (now again : Nat) (timestamp : Int) : Deliveries I :=
  let res := (s.hosts t.on).tryAcquire cfg.perHost (env.host t.d.url) now again
  let s' := { s with hosts := Function.update s.hosts t.on res.2 }
  match res.1 with
  | .error wait =>
    { s' with tasks := { t with phase := .deferring (max wait 500000000) } :: s.others t }
  | .ok _ =>
    { s' with
      tasks := { t with phase := .posting } :: s.others t
      posts := post env t timestamp :: s.posts }

def defer (t : DeliverTask I) (wait : Int) (committed : Bool) : Deliveries I :=
  { s with
    table := if committed then s.table.step (.defer s.now t.d.id wait) else s.table
    tasks := s.others t }

def answer (t : DeliverTask I) (a : PostAnswer) (jitter now : Nat) : Deliveries I :=
  { s with
    hosts := Function.update s.hosts t.on
      ((s.hosts t.on).release (env.host t.d.url) now a.isSuccess)
    tasks := { t with phase := .writing (a.outcome cfg t.d.attempts jitter) } :: s.others t
    answers := ⟨t.number,t.d.id,a.isSuccess⟩ :: s.answers }

def record (t : DeliverTask I) (o : PostOutcome) : Dispatch I :=
  if o.ok then s.table.step (.delivered s.now t.d.id (o.status.getD 200))
  else s.table.step (.failed s.now t.d.id o.status o.error o.retryIn)

/-- When the result cannot be recorded the lease lapses and the delivery is attempted again. -/
def write (t : DeliverTask I) (o : PostOutcome) (committed : Bool) : Deliveries I :=
  if committed then
    { s with
      table := s.record t o
      tasks := s.others t
      results := ⟨t.number,t.d.id,o.ok⟩ :: s.results }
  else { s with tasks := s.others t }

def crash (i : I) : Deliveries I :=
  { s with
    table := { s.table with claiming := Function.update s.table.claiming i none }
    hosts := Function.update s.hosts i .new
    tasks := s.tasks.filter fun t => t.on ≠ i }

def step : DeliveryEvent I → Deliveries I
  | .tick n => { s with now := s.now+n }
  | .enqueue job event re => { s with table := s.table.step (.enqueue s.now job event re) }
  | .begin i =>
    { s with
      table := s.table.step (.begin i s.now)
      free := Function.update s.free i (cfg.permits-s.active i) }
  | .claim i locked answered => s.claim cfg i locked answered
  | .acquire t now again timestamp => s.acquire cfg env t now again timestamp
  | .defer t committed =>
    match t.phase with
    | .deferring wait => s.defer t wait committed
    | _ => s
  | .answer t a jitter now => s.answer cfg env t a jitter now
  | .write t committed =>
    match t.phase with
    | .writing o => s.write t o committed
    | _ => s
  | .crash i => s.crash i

end Steps

def Allowed (cfg : DeliveryConfig) (s : Deliveries I) : DeliveryEvent I → Prop
  | .tick _ | .crash _ => True
  | .enqueue job event re => Dispatch.Allowed s.table (.enqueue s.now job event re)
  | .begin i => s.active i < cfg.permits
  | .claim i _ _ => (s.table.claiming i).isSome = true
  | .acquire t _ _ _ => t ∈ s.tasks ∧ t.phase = .acquiring
  | .defer t _ => t ∈ s.tasks ∧ t.phase.isDeferring = true
  | .answer t _ jitter _ => t ∈ s.tasks ∧ t.phase = .posting ∧
      jitter ≤ cfg.backoff (t.d.attempts+1)/2
  | .write t _ => t ∈ s.tasks ∧ t.phase.isWriting = true

def machine (cfg : DeliveryConfig) (env : DeliveryEnv) :
    Machine (Deliveries I) (DeliveryEvent I) := ⟨Allowed cfg,step cfg env⟩

instance (cfg : DeliveryConfig) (s : Deliveries I) : ∀ e, Decidable (s.Allowed cfg e)
  | .tick _ | .crash _ => .isTrue trivial
  | .enqueue job _ _ => inferInstanceAs (Decidable (job.webhookSeq = _+1))
  | .begin _ => inferInstanceAs (Decidable (_ < _))
  | .claim _ _ _ => inferInstanceAs (Decidable (_ = true))
  | .acquire _ _ _ _ | .defer _ _ | .answer _ _ _ _ | .write _ _ =>
    inferInstanceAs (Decidable (_ ∧ _))

instance (cfg : DeliveryConfig) (env : DeliveryEnv) (s : Deliveries I) (e : DeliveryEvent I) :
    Decidable ((machine cfg env).allowed s e) :=
  inferInstanceAs (Decidable (s.Allowed cfg e))

end Deliveries

/-! ## What an update leaves of a row -/

/-- What a row says of its event. -/
def OutboxRow.content (r : OutboxRow) : Uuid × JobId × WebhookEvent × String × Payload :=
  (r.row.id,r.row.jobId,r.row.event,r.row.url,r.row.payload)

def Delivery.content (d : Delivery) : Uuid × JobId × WebhookEvent × String × Payload :=
  (d.id,d.jobId,d.event,d.url,d.payload)

/-- A request that carries what its row says. -/
def Post.Carries (env : DeliveryEnv) (p : Post)
    (c : Uuid × JobId × WebhookEvent × String × Payload) : Prop :=
  p.eventId = c.1 ∧ p.jobId = c.2.1 ∧ p.url = c.2.2.2.1 ∧ p.body = env.body c.2.2.2.2 ∧
    p.signature = env.signature p.timestamp p.body

section Updates

variable {rows : List OutboxRow} {f : OutboxRow → OutboxRow}

theorem mem_rewrite {q : OutboxRow → Bool} {r' : OutboxRow}
    (h : r' ∈ rows.map (Relational.rewrite q f)) :
    ∃ r ∈ rows, (q r = true ∧ r' = f r) ∨ (q r = false ∧ r' = r) := by
  obtain ⟨r,hr,rfl⟩ := List.mem_map.mp h
  refine ⟨r,hr,?_⟩
  cases hq : q r with
  | true => exact Or.inl ⟨rfl,Relational.rewrite_of hq⟩
  | false => exact Or.inr ⟨rfl,Relational.rewrite_of_not (by simp [hq])⟩

theorem map_rewrite_content {q : OutboxRow → Bool} (hf : ∀ r : OutboxRow, (f r).content = r.content) :
    (rows.map (Relational.rewrite q f)).map OutboxRow.content = rows.map OutboxRow.content := by
  rw [List.map_map]
  refine List.map_congr_left fun r _ => ?_
  show (Relational.rewrite q f r).content = r.content
  unfold Relational.rewrite
  split
  · exact hf r
  · rfl

end Updates

namespace Dispatch

variable {D : Type} [DecidableEq D]

/-- No step changes what a row says. -/
theorem step_content (s : Dispatch D) (e : DispatchEvent D) :
    s.rows.map OutboxRow.content <+: (s.step e).rows.map OutboxRow.content := by
  have hmap : ∀ (q : OutboxRow → Bool) (f : OutboxRow → OutboxRow),
      (∀ r : OutboxRow, (f r).content = r.content) →
      s.rows.map OutboxRow.content <+:
        (s.rows.map (Relational.rewrite q f)).map OutboxRow.content := by
    intro q f hf
    rw [map_rewrite_content hf]
  cases e with
  | enqueue now job event re =>
    show _ <+: (s.rows++[_]).map _
    rw [List.map_append]
    exact List.prefix_append ..
  | begin d now => exact List.prefix_rfl
  | claim d locked limit secs =>
    show _ <+: (s.claim d locked limit secs).rows.map _
    unfold claim
    split
    · exact hmap _ _ fun _ => rfl
    · exact List.prefix_rfl
  | delivered now id code => exact hmap _ _ fun _ => rfl
  | failed now id code error retryIn =>
    cases retryIn with
    | none => exact hmap _ _ fun _ => rfl
    | some secs => exact hmap _ _ fun _ => rfl
  | defer now id secs => exact hmap _ _ fun _ => rfl

end Dispatch

/-! ## What was recorded of each delivery -/

/-- The results that were recorded of an event, as its row has them. -/
structure OutboxRow.Accounted (max : Nat) (results : List Answered) (r : OutboxRow) : Prop where
  counted : r.attempts = results.countP fun a => a.id = r.row.id
  pending : r.row.status = .pending → ∀ a ∈ results, a.id = r.row.id → a.ok = false
  delivered : r.row.status = .delivered → ∃ a ∈ results, a.id = r.row.id ∧ a.ok = true
  dead : r.row.status = .dead →
    max ≤ results.countP fun a => a.id = r.row.id && !a.ok

section Accounted

variable {max : Nat} {results : List Answered} {r : OutboxRow} {a : Answered}

theorem OutboxRow.Accounted.moved (h : r.Accounted max results) (next : Int) :
    OutboxRow.Accounted max results { r with nextAttemptAt := next } :=
  ⟨h.counted,h.pending,h.delivered,h.dead⟩

/-- A result of another event. -/
theorem OutboxRow.Accounted.other (h : r.Accounted max results) (ha : a.id ≠ r.row.id) :
    r.Accounted max (a :: results) where
  counted := by
    rw [List.countP_cons_of_neg (by simpa using ha)]
    exact h.counted
  pending hs b hb hid := by
    rcases List.mem_cons.mp hb with rfl | hb
    · exact absurd hid ha
    · exact h.pending hs b hb hid
  delivered hs := by
    obtain ⟨b,hb,hid,hok⟩ := h.delivered hs
    exact ⟨b,List.mem_cons_of_mem _ hb,hid,hok⟩
  dead hs := by
    rw [List.countP_cons_of_neg (by simpa using fun he => absurd he ha)]
    exact h.dead hs

theorem OutboxRow.Accounted.success (h : r.Accounted max results) (ha : a.id = r.row.id)
    (hok : a.ok = true) {r' : OutboxRow} (hid : r'.row.id = r.row.id)
    (hattempts : r'.attempts = r.attempts+1) (hst : r'.row.status = .delivered) :
    r'.Accounted max (a :: results) where
  counted := by
    rw [hattempts,h.counted,List.countP_cons_of_pos (by simpa [hid] using ha),hid]
  pending hs := absurd (hst.symm.trans hs) (by decide)
  delivered _ := ⟨a,List.mem_cons_self,ha.trans hid.symm,hok⟩
  dead hs := absurd (hst.symm.trans hs) (by decide)

/-- A failure after which the delivery is tried again, or given up when it was the last. -/
theorem OutboxRow.Accounted.failure (h : r.Accounted max results) (ha : a.id = r.row.id)
    (hok : a.ok = false) {r' : OutboxRow} (hid : r'.row.id = r.row.id)
    (hattempts : r'.attempts = r.attempts+1)
    (hst : r'.row.status = r.row.status ∨ r'.row.status = .dead ∧
      max ≤ (results.countP fun a => a.id = r.row.id && !a.ok)+1) :
    r'.Accounted max (a :: results) where
  counted := by
    rw [hattempts,h.counted,List.countP_cons_of_pos (by simpa [hid] using ha),hid]
  pending hs b hb hbid := by
    have hold : r.row.status = .pending := by
      rcases hst with hst | ⟨hst,-⟩
      · exact hst.symm.trans hs
      · exact absurd (hst.symm.trans hs) (by decide)
    rcases List.mem_cons.mp hb with rfl | hb
    · exact hok
    · exact h.pending hold b hb (hbid.trans hid)
  delivered hs := by
    have hold : r.row.status = .delivered := by
      rcases hst with hst | ⟨hst,-⟩
      · exact hst.symm.trans hs
      · exact absurd (hst.symm.trans hs) (by decide)
    obtain ⟨b,hb,hbid,hbok⟩ := h.delivered hold
    exact ⟨b,List.mem_cons_of_mem _ hb,hbid.trans hid.symm,hbok⟩
  dead hs := by
    rw [List.countP_cons_of_pos (by simp [hid,ha,hok]),hid]
    rcases hst with hst | ⟨-,hmax⟩
    · exact (h.dead (hst.symm.trans hs)).trans (Nat.le_succ _)
    · exact hmax

end Accounted

namespace Deliveries

variable {I : Type} [DecidableEq I]

/-- The results of failed attempts of a delivery. -/
def failures (as : List Answered) (id : Uuid) : Nat := as.countP fun a => a.id = id && !a.ok

/-- What holds of a delivery under way. -/
structure TaskSound (cfg : DeliveryConfig) (s : Deliveries I) (t : DeliverTask I) : Prop where
  fresh : t.number < s.spawned
  known : t.d.content ∈ s.table.rows.map OutboxRow.content
  tried : t.d.attempts ≤ failures s.results t.d.id
  unrecorded : ∀ a ∈ s.results, a.task ≠ t.number
  posting : t.phase = .posting → ∃ p ∈ s.posts, p.task = t.number ∧ p.eventId = t.d.id
  writing : ∀ o, t.phase = .writing o → ⟨t.number,t.d.id,o.ok⟩ ∈ s.answers ∧
    ∃ jitter, o.retryIn = cfg.retryIn t.d.attempts jitter

structure Kept (cfg : DeliveryConfig) (env : DeliveryEnv) (s : Deliveries I) : Prop where
  numbered : Dispatch.Numbered s.table.rows
  rows : ∀ r ∈ s.table.rows, r.Accounted cfg.maxAttempts s.results
  tasks : ∀ t ∈ s.tasks, TaskSound cfg s t
  distinct : (s.tasks.map DeliverTask.number).Nodup
  past : ∀ a ∈ s.results, a.task < s.spawned
  once : (s.results.map Answered.task).Nodup
  answered : ∀ a ∈ s.results, a ∈ s.answers
  made : ∀ a ∈ s.answers, ∃ p ∈ s.posts, p.task = a.task ∧ p.eventId = a.id
  sent : ∀ p ∈ s.posts, ∃ c ∈ s.table.rows.map OutboxRow.content, Post.Carries env p c
  free : ∀ i, (s.table.claiming i).isSome = true → s.free i+s.active i ≤ cfg.permits
  permits : ∀ i, s.active i ≤ cfg.permits

/-- A later state, as far as a delivery under way can tell. -/
structure Later (s s' : Deliveries I) : Prop where
  content : ∀ c ∈ s.table.rows.map OutboxRow.content, c ∈ s'.table.rows.map OutboxRow.content
  spawned : s.spawned ≤ s'.spawned
  posts : ∀ p ∈ s.posts, p ∈ s'.posts
  answers : ∀ a ∈ s.answers, a ∈ s'.answers
  results : s.results <:+ s'.results

section Kept

variable {cfg : DeliveryConfig} {env : DeliveryEnv} {s s' : Deliveries I} {t : DeliverTask I}

theorem failures_mono {as bs : List Answered} (h : as <:+ bs) (id : Uuid) :
    failures as id ≤ failures bs id :=
  h.sublist.countP_le

omit [DecidableEq I] in
theorem TaskSound.later (h : TaskSound cfg s t) (hl : Later s s')
    (hnew : ∀ a ∈ s'.results, a ∈ s.results ∨ a.task ≠ t.number) : TaskSound cfg s' t where
  fresh := h.fresh.trans_le hl.spawned
  known := hl.content _ h.known
  tried := h.tried.trans (failures_mono hl.results _)
  unrecorded a ha := (hnew a ha).elim (h.unrecorded a) id
  posting hp := by
    obtain ⟨p,hmem,hp⟩ := h.posting hp
    exact ⟨p,hl.posts p hmem,hp⟩
  writing o ho := ⟨hl.answers _ (h.writing o ho).1,(h.writing o ho).2⟩

omit [DecidableEq I] in
theorem mem_others {u : DeliverTask I} : u ∈ s.others t ↔ u ∈ s.tasks ∧ u.number ≠ t.number := by
  simp [others]

/-- A task put back in its place keeps the permits in use. -/
theorem countP_others (i : I) (ht : t ∈ s.tasks) :
    ((s.others t).countP fun u => u.on = i)+(if t.on = i then 1 else 0) ≤ s.active i := by
  have hsplit := List.countP_eq_countP_filter_add s.tasks (fun u => u.on = i)
    (fun u => u.number ≠ t.number)
  unfold active others
  rw [hsplit]
  split
  · next hi =>
    have hpos : 0 < (s.tasks.filter fun u => !decide (u.number ≠ t.number)).countP fun u => u.on = i := by
      refine List.countP_pos_iff.mpr ⟨t,?_,by simpa using hi⟩
      simpa using ht
    omega
  · omega

/-- Some tasks are gone, and the table is one that says the same. -/
theorem Kept.drop (h : Kept cfg env s) (htasks : s'.tasks.Sublist s.tasks) (hl : Later s s')
    (hnumbered : Dispatch.Numbered s'.table.rows)
    (hrows : ∀ r ∈ s'.table.rows, r.Accounted cfg.maxAttempts s.results)
    (hclaiming : ∀ i, (s'.table.claiming i).isSome = true → (s.table.claiming i).isSome = true)
    (hfree : s'.free = s.free) (hspawned : s'.spawned = s.spawned) (hposts : s'.posts = s.posts)
    (hanswers : s'.answers = s.answers) (hresults : s'.results = s.results) : Kept cfg env s' := by
  have hactive : ∀ i, s'.active i ≤ s.active i := fun i => htasks.countP_le
  refine ⟨hnumbered,?_,fun t ht => ?_,h.distinct.sublist (htasks.map _),?_,?_,?_,?_,?_,fun i hi => ?_,
    fun i => (hactive i).trans (h.permits i)⟩
  · rwa [hresults]
  · refine (h.tasks t (htasks.subset ht)).later hl fun a ha => ?_
    rw [hresults] at ha
    exact Or.inl ha
  · rw [hresults,hspawned]
    exact h.past
  · rw [hresults]
    exact h.once
  · rw [hresults,hanswers]
    exact h.answered
  · rw [hanswers,hposts]
    exact h.made
  · rw [hposts]
    intro p hp
    obtain ⟨c,hc,hcar⟩ := h.sent p hp
    exact ⟨c,hl.content c hc,hcar⟩
  · rw [hfree]
    exact (Nat.add_le_add_left (hactive i) _).trans (h.free i (hclaiming i hi))

/-- A delivery goes on. -/
theorem Kept.retask (h : Kept cfg env s) (ht : t ∈ s.tasks) {t' : DeliverTask I}
    (htasks : s'.tasks = t' :: s.others t) (hnum : t'.number = t.number) (hon : t'.on = t.on)
    (htable : s'.table = s.table) (hfree : s'.free = s.free) (hspawned : s'.spawned = s.spawned)
    (hresults : s'.results = s.results) (hl : Later s s') (hsound : TaskSound cfg s' t')
    (hmade : ∀ a ∈ s'.answers, ∃ p ∈ s'.posts, p.task = a.task ∧ p.eventId = a.id)
    (hsent : ∀ p ∈ s'.posts, ∃ c ∈ s.table.rows.map OutboxRow.content, Post.Carries env p c) :
    Kept cfg env s' := by
  have hactive : ∀ i, s'.active i ≤ s.active i := by
    intro i
    have hle := countP_others i ht
    unfold active at hle ⊢
    rw [htasks,List.countP_cons,hon]
    simpa only [decide_eq_true_eq] using hle
  refine ⟨?_,?_,fun u hu => ?_,?_,?_,?_,?_,hmade,?_,fun i hi => ?_,
    fun i => (hactive i).trans (h.permits i)⟩
  · rw [htable]
    exact h.numbered
  · rw [htable,hresults]
    exact h.rows
  · rw [htasks] at hu
    rcases List.mem_cons.mp hu with rfl | hu
    · exact hsound
    · refine (h.tasks u (mem_others.mp hu).1).later hl fun a ha => ?_
      rw [hresults] at ha
      exact Or.inl ha
  · -- the task keeps its number, which no other task has
    rw [htasks,List.map_cons,List.nodup_cons]
    refine ⟨fun hmem => ?_,h.distinct.sublist (List.filter_sublist.map _)⟩
    obtain ⟨u,hu,he⟩ := List.mem_map.mp hmem
    exact (mem_others.mp hu).2 (he.trans hnum)
  · rw [hresults,hspawned]
    exact h.past
  · rw [hresults]
    exact h.once
  · rw [hresults]
    exact fun a ha => hl.answers a (h.answered a ha)
  · rw [htable]
    exact hsent
  · rw [hfree]
    rw [htable] at hi
    exact (Nat.add_le_add_left (hactive i) _).trans (h.free i hi)

theorem Kept.acquire (h : Kept cfg env s) (ht : t ∈ s.tasks) (now again : Nat) (timestamp : Int) :
    Kept cfg env (s.acquire cfg env t now again timestamp) := by
  have hsound := h.tasks t ht
  unfold Deliveries.acquire
  dsimp only
  split
  · refine h.retask ht rfl rfl rfl rfl rfl rfl rfl ⟨fun _ hc => hc,le_rfl,fun _ hp => hp,fun _ ha => ha,
      List.suffix_rfl⟩ ?_ h.made h.sent
    exact ⟨hsound.fresh,hsound.known,hsound.tried,hsound.unrecorded,(fun hp => nomatch hp),
      fun _ hp => nomatch hp⟩
  · refine h.retask ht rfl rfl rfl rfl rfl rfl rfl ⟨fun _ hc => hc,le_rfl,
      fun _ hp => List.mem_cons_of_mem _ hp,fun _ ha => ha,List.suffix_rfl⟩ ?_ (fun a ha => ?_)
      fun p hp => ?_
    · exact ⟨hsound.fresh,hsound.known,hsound.tried,hsound.unrecorded,
        fun _ => ⟨_,List.mem_cons_self,rfl,rfl⟩,fun _ hp => nomatch hp⟩
    · obtain ⟨p,hp,he⟩ := h.made a ha
      exact ⟨p,List.mem_cons_of_mem _ hp,he⟩
    · rcases List.mem_cons.mp hp with rfl | hp
      · exact ⟨_,hsound.known,rfl,rfl,rfl,rfl,rfl⟩
      · exact h.sent p hp

theorem retryIn_eq_none {attempts jitter : Nat} :
    cfg.retryIn attempts jitter = none ↔ cfg.maxAttempts ≤ attempts+1 := by
  unfold DeliveryConfig.retryIn
  split
  · simp
    omega
  · simp
    omega

theorem Kept.answer (h : Kept cfg env s) (ht : t ∈ s.tasks) (hp : t.phase = .posting)
    (a : PostAnswer) (jitter now : Nat) : Kept cfg env (s.answer cfg env t a jitter now) := by
  have hsound := h.tasks t ht
  obtain ⟨p,hpost,hptask,hpid⟩ := hsound.posting hp
  refine h.retask ht rfl rfl rfl rfl rfl rfl rfl ⟨fun _ hc => hc,le_rfl,fun _ hp => hp,
    fun _ ha => List.mem_cons_of_mem _ ha,List.suffix_rfl⟩ ?_ (fun b hb => ?_) h.sent
  · refine ⟨hsound.fresh,hsound.known,hsound.tried,hsound.unrecorded,(fun hp => nomatch hp),?_⟩
    rintro o ⟨⟩
    exact ⟨List.mem_cons_self,jitter,rfl⟩
  · rcases List.mem_cons.mp hb with rfl | hb
    · exact ⟨p,hpost,hptask,hpid⟩
    · exact h.made b hb

/-- A statement that records no result. -/
theorem Kept.statement (h : Kept cfg env s) {e : DispatchEvent I} (he : Dispatch.Allowed s.table e)
    (hrows : ∀ r' ∈ (s.table.step e).rows, ∃ r ∈ s.table.rows, ∃ next,
      r' = { r with nextAttemptAt := next })
    (hclaiming : ∀ i, ((s.table.step e).claiming i).isSome = true →
      (s.table.claiming i).isSome = true) {tasks : List (DeliverTask I)}
    (htasks : tasks.Sublist s.tasks) :
    Kept cfg env { s with table := s.table.step e, tasks := tasks } := by
  refine h.drop htasks ⟨fun c hc => (Dispatch.step_content s.table e).subset hc,le_rfl,
    fun _ hp => hp,fun _ ha => ha,List.suffix_rfl⟩ (Dispatch.step_rows h.numbered he).2
    (fun r' hr' => ?_) hclaiming rfl rfl rfl rfl rfl
  obtain ⟨r,hr,next,rfl⟩ := hrows r' hr'
  exact (h.rows r hr).moved next

theorem rewrite_next {rows : List OutboxRow} {q : OutboxRow → Bool} {next : Int} {r' : OutboxRow}
    (h : r' ∈ rows.map (Relational.rewrite q fun r => { r with nextAttemptAt := next })) :
    ∃ r ∈ rows, ∃ next, r' = { r with nextAttemptAt := next } := by
  obtain ⟨r,hr,⟨-,rfl⟩ | ⟨-,rfl⟩⟩ := mem_rewrite h
  · exact ⟨r,hr,next,rfl⟩
  · exact ⟨r',hr,r'.nextAttemptAt,rfl⟩

theorem Kept.defer (h : Kept cfg env s) (wait : Int) (committed : Bool) :
    Kept cfg env (s.defer t wait committed) := by
  unfold Deliveries.defer
  cases committed with
  | true =>
    exact h.statement (e := .defer s.now t.d.id wait) trivial (fun _ hr => rewrite_next hr) (fun _ hi => hi)
      List.filter_sublist
  | false =>
    exact h.drop List.filter_sublist ⟨fun _ hc => hc,le_rfl,fun _ hp => hp,fun _ ha => ha,
      List.suffix_rfl⟩ h.numbered h.rows (fun _ hi => hi) rfl rfl rfl rfl rfl

theorem Kept.crash (h : Kept cfg env s) (i : I) : Kept cfg env (s.crash i) := by
  refine h.drop List.filter_sublist ⟨fun _ hc => hc,le_rfl,fun _ hp => hp,fun _ ha => ha,
    List.suffix_rfl⟩ h.numbered h.rows (fun j hj => ?_) rfl rfl rfl rfl rfl
  by_cases hij : j = i
  · subst hij
    simp [Deliveries.crash] at hj
  · simpa only [Deliveries.crash,Function.update_of_ne hij] using hj

/-- The row of an event that is known. -/
theorem Kept.row_id (h : Kept cfg env s) {a : Answered} (ha : a ∈ s.results) :
    ∃ r ∈ s.table.rows, r.row.id = a.id := by
  obtain ⟨p,hp,-,hid⟩ := h.made a (h.answered a ha)
  obtain ⟨c,hc,hcar⟩ := h.sent p hp
  obtain ⟨r,hr,rfl⟩ := List.mem_map.mp hc
  exact ⟨r,hr,hcar.1.symm.trans hid⟩

theorem Kept.enqueue (h : Kept cfg env s) (job : JobRow) (event : WebhookEvent) (re : Bool)
    (he : Dispatch.Allowed s.table (.enqueue s.now job event re)) :
    Kept cfg env { s with table := s.table.step (.enqueue s.now job event re) } := by
  refine h.drop (List.Sublist.refl _) ⟨fun c hc => (Dispatch.step_content s.table _).subset hc,le_rfl,
    fun _ hp => hp,fun _ ha => ha,List.suffix_rfl⟩ (Dispatch.step_rows h.numbered he).2
    (fun r hr => ?_) (fun _ hi => hi) rfl rfl rfl rfl rfl
  rcases List.mem_append.mp hr with hr | hr
  · exact h.rows r hr
  · obtain rfl := List.mem_singleton.mp hr
    have hnew : ∀ a ∈ s.results, a.id ≠ (Dispatch.deliveries s.table.rows).length := by
      intro a ha hid
      obtain ⟨r,hr,hrid⟩ := h.row_id ha
      have hmem : r.row.id ∈ s.table.rows.map (·.row.id) := List.mem_map_of_mem hr
      rw [h.numbered.ids,List.mem_range,hrid,hid,Dispatch.deliveries,List.length_map] at hmem
      exact lt_irrefl _ hmem
    refine ⟨?_,fun _ a ha hid => absurd hid (hnew a ha),fun hs => ?_,fun hs => ?_⟩
    rotate_left
    · cases hs
    · cases hs
    exact (List.countP_eq_zero.mpr fun a ha he => hnew a ha (of_decide_eq_true he)).symm

theorem Kept.begin (h : Kept cfg env s) {i : I} (hi : s.active i < cfg.permits) :
    Kept cfg env (s.step cfg env (.begin i)) := by
  refine ⟨h.numbered,h.rows,fun t ht => (h.tasks t ht).later ⟨fun _ hc => hc,le_rfl,fun _ hp => hp,
    fun _ ha => ha,List.suffix_rfl⟩ fun _ ha => Or.inl ha,h.distinct,h.past,h.once,h.answered,h.made,
    h.sent,fun j hj => ?_,h.permits⟩
  show Function.update s.free i (cfg.permits-s.active i) j+s.active j ≤ cfg.permits
  by_cases hij : j = i
  · subst hij
    rw [Function.update_self]
    omega
  · rw [Function.update_of_ne hij]
    refine h.free j ?_
    have hj : (Function.update s.table.claiming i _ j).isSome = true := hj
    rwa [Function.update_of_ne hij] at hj

/-- The rows a claim takes are pending. -/
theorem Kept.claimed (h : Kept cfg env s) {i : I} {locked : List Uuid} {limit : Nat} {r : OutboxRow}
    (hr : r ∈ s.table.rows) (hid : r.row.id ∈ s.table.claimed i locked limit) :
    r.row.status = .pending := by
  unfold Dispatch.claimed at hid
  split at hid
  · obtain ⟨-,-,r',hr',hrid,hdue⟩ := Dispatch.mem_claim hid
    obtain rfl := h.numbered.eq_of_id hr' hr hrid
    simp only [OutboxRow.isDue,OutboxRow.isPending,Bool.and_eq_true,decide_eq_true_eq] at hdue
    exact hdue.1
  · exact absurd hid List.not_mem_nil

omit [DecidableEq I] in
theorem length_claimed (i : I) (locked : List Uuid) (limit : Nat) :
    (s.table.claimed i locked limit).length ≤ limit := by
  unfold Dispatch.claimed
  split
  · unfold claimDueDeliveries
    simp only [List.length_map]
    exact List.length_take_le ..
  · exact Nat.zero_le _

theorem Kept.length_rows (h : Kept cfg env s) (i : I) (locked : List Uuid) (limit : Nat) :
    (s.table.rows.filter fun r => r.row.id ∈ s.table.claimed i locked limit).length ≤ limit := by
  have hnodup : (s.table.rows.map (·.row.id)).Nodup := h.numbered.ids ▸ List.nodup_range
  have hfilter := hnodup.sublist
    ((List.filter_sublist (p := fun r => r.row.id ∈ s.table.claimed i locked limit)
      (l := s.table.rows)).map (·.row.id))
  have hsub : (List.map (·.row.id) (s.table.rows.filter
      fun r => r.row.id ∈ s.table.claimed i locked limit)).Subperm
        (s.table.claimed i locked limit) :=
    hfilter.subperm fun x hx => by
      obtain ⟨r,hr,rfl⟩ := List.mem_map.mp hx
      exact of_decide_eq_true (List.mem_filter.mp hr).2
  have hle := hsub.length_le
  rw [List.length_map] at hle
  exact hle.trans (length_claimed i locked limit)

omit [DecidableEq I] in
theorem mem_spawn {i : I} {claimedAt : Int} {rows : List OutboxRow} {u : DeliverTask I}
    (hu : u ∈ s.spawn i claimedAt rows) : ∃ r ∈ rows, ∃ n, s.spawned ≤ n ∧ n < s.spawned+rows.length ∧
      u = ⟨n,i,r.delivery,claimedAt,.acquiring⟩ := by
  obtain ⟨⟨r,n⟩,hmem,rfl⟩ := List.mem_map.mp hu
  obtain ⟨hle,hlt,he⟩ := List.mem_zipIdx hmem
  exact ⟨r,he ▸ List.getElem_mem _,n,hle,by omega,rfl⟩

omit [DecidableEq I] in
theorem spawn_numbers (i : I) (claimedAt : Int) (rows : List OutboxRow) :
    (s.spawn i claimedAt rows).map DeliverTask.number = List.range' s.spawned rows.length := by
  rw [← List.zipIdx_map_snd s.spawned rows,spawn,List.map_map]
  rfl

theorem spawn_active (i j : I) (claimedAt : Int) (rows : List OutboxRow) :
    ((s.spawn i claimedAt rows).countP fun u => u.on = j) = if i = j then rows.length else 0 := by
  split
  · next hij =>
    subst hij
    rw [List.countP_eq_length.mpr]
    · simp [spawn]
    · intro u hu
      obtain ⟨r,-,n,-,-,rfl⟩ := mem_spawn hu
      simp
  · next hij =>
    refine List.countP_eq_zero.mpr fun u hu => ?_
    obtain ⟨r,-,n,-,-,rfl⟩ := mem_spawn hu
    simpa using hij

/-- The claimed rows get a delivery each. -/
theorem Kept.spawned (h : Kept cfg env s) {i : I} (claimedAt : Int) {rows : List OutboxRow}
    (hrows : ∀ r ∈ rows, r.content ∈ s.table.rows.map OutboxRow.content ∧
      r.attempts ≤ failures s.results r.row.id)
    (hclaim : s.table.claiming i = none) (hroom : rows.length+s.active i ≤ cfg.permits) :
    Kept cfg env { s with
      tasks := s.tasks++s.spawn i claimedAt rows
      spawned := s.spawned+rows.length } := by
  have hlater : Later s { s with
      tasks := s.tasks++s.spawn i claimedAt rows
      spawned := s.spawned+rows.length } :=
    ⟨fun _ hc => hc,Nat.le_add_right ..,fun _ hp => hp,fun _ ha => ha,List.suffix_rfl⟩
  have hactive : ∀ j, active { s with
      tasks := s.tasks++s.spawn i claimedAt rows
      spawned := s.spawned+rows.length } j = s.active j+if i = j then rows.length else 0 := by
    intro j
    rw [← spawn_active i j claimedAt rows]
    exact List.countP_append
  refine ⟨h.numbered,h.rows,fun t ht => ?_,?_,fun a ha => ?_,h.once,h.answered,h.made,h.sent,
    fun j hj => ?_,fun j => ?_⟩
  · rcases List.mem_append.mp ht with ht | ht
    · exact (h.tasks t ht).later hlater fun _ ha => Or.inl ha
    · obtain ⟨r,hr,n,hle,hlt,rfl⟩ := mem_spawn ht
      refine ⟨hlt,(hrows r hr).1,(hrows r hr).2,fun a ha he => ?_,(fun hp => nomatch hp),
        fun _ hp => nomatch hp⟩
      have hpast := h.past a ha
      have he : a.task = n := he
      omega
  · -- new tasks are numbered from `spawned` on, and every older number is below it
    show ((s.tasks++s.spawn i claimedAt rows).map DeliverTask.number).Nodup
    rw [List.map_append,spawn_numbers,List.nodup_append']
    refine ⟨h.distinct,List.nodup_range',fun n hn hn' => ?_⟩
    obtain ⟨t,ht,rfl⟩ := List.mem_map.mp hn
    have hfresh := (h.tasks t ht).fresh
    have hge := (List.mem_range'_1.mp hn').1
    omega
  · exact (h.past a ha).trans_le (Nat.le_add_right ..)
  · -- the statement of `i` is answered, so it is another instance that still claims
    rw [hactive]
    have hij : i ≠ j := by
      intro he
      subst he
      have hj : (s.table.claiming i).isSome = true := hj
      rw [hclaim] at hj
      cases hj
    rw [if_neg hij]
    exact h.free j hj
  · rw [hactive]
    split
    · next hij =>
      subst hij
      omega
    · exact h.permits j

theorem Kept.claim (h : Kept cfg env s) (i : I) (locked : List Uuid) (answered : Bool) :
    Kept cfg env (s.claim cfg i locked answered) := by
  unfold Deliveries.claim
  cases hc : s.table.claiming i with
  | none => exact h
  | some c =>
    obtain ⟨claimedAt,snapshot⟩ := c
    have hstep : s.table.step (.claim i locked (s.free i) cfg.lease) =
        { rows := GumEngine.lease claimedAt cfg.lease (s.table.claimed i locked (s.free i)) s.table.rows
          claiming := Function.update s.table.claiming i none } := by
      show s.table.claim i locked (s.free i) cfg.lease = _
      unfold Dispatch.claim
      rw [hc]
    have hleased : Kept cfg env { s with
        table := s.table.step (.claim i locked (s.free i) cfg.lease)
        tasks := s.tasks } := by
      refine h.statement (e := .claim i locked (s.free i) cfg.lease) trivial (fun r' hr' => ?_)
        (fun j hj => ?_) (List.Sublist.refl _)
      · rw [hstep] at hr'
        exact rewrite_next hr'
      · rw [hstep] at hj
        by_cases hij : j = i
        · subst hij
          simp at hj
        · simpa only [Function.update_of_ne hij] using hj
    cases answered with
    | false => exact hleased
    | true =>
      refine hleased.spawned claimedAt (fun r hr => ?_) ?_ ?_
      · obtain ⟨hmem,hid⟩ := List.mem_filter.mp hr
        have hpending := h.claimed hmem (of_decide_eq_true hid)
        refine ⟨(Dispatch.step_content s.table _).subset (List.mem_map_of_mem hmem),?_⟩
        -- all results of a pending row are failures
        rw [(h.rows r hmem).counted]
        refine le_of_eq (List.countP_congr fun a ha => ?_)
        have hok := (h.rows r hmem).pending hpending a ha
        simp only [decide_eq_true_eq,Bool.and_eq_true,Bool.not_eq_true']
        exact ⟨fun he => ⟨he,hok he⟩,And.left⟩
      · rw [hstep]
        exact Function.update_self ..
      · have hfree := h.free i (by rw [hc]; rfl)
        have hlen := h.length_rows i locked (s.free i)
        exact (Nat.add_le_add_right hlen _).trans hfree

/-- The row of a delivery after a result was recorded. -/
structure Recorded (o : PostOutcome) (r r' : OutboxRow) : Prop where
  id : r'.row.id = r.row.id
  attempts : r'.attempts = r.attempts+1
  success : o.ok = true → r'.row.status = .delivered
  again : ∀ wait, o.ok = false → o.retryIn = some wait → r'.row.status = r.row.status
  last : o.ok = false → o.retryIn = none → r'.row.status = .dead

/-- What recording a result makes of the rows. -/
theorem record_rows {o : PostOutcome} {r' : OutboxRow} (hr' : r' ∈ (s.record t o).rows) :
    ∃ r ∈ s.table.rows, (r.row.id = t.d.id ∧ Recorded o r r') ∨ (r.row.id ≠ t.d.id ∧ r' = r) := by
  unfold Deliveries.record at hr'
  cases hok : o.ok with
  | true =>
    rw [if_pos hok] at hr'
    have hr' : r' ∈ markDelivered s.now t.d.id (o.status.getD 200) s.table.rows := hr'
    obtain ⟨r,hr,⟨hid,rfl⟩ | ⟨hid,rfl⟩⟩ := mem_rewrite hr'
    · exact ⟨r,hr,Or.inl ⟨of_decide_eq_true hid,rfl,rfl,fun _ => rfl,by simp [hok],by simp [hok]⟩⟩
    · exact ⟨r',hr,Or.inr ⟨of_decide_eq_false hid,rfl⟩⟩
  | false =>
    rw [if_neg (by simp [hok])] at hr'
    have hr' : r' ∈ markDeliveryFailed s.now t.d.id o.status o.error o.retryIn s.table.rows := hr'
    cases hretry : o.retryIn with
    | some wait =>
      rw [hretry,markDeliveryFailed] at hr'
      obtain ⟨r,hr,⟨hid,rfl⟩ | ⟨hid,rfl⟩⟩ := mem_rewrite hr'
      · exact ⟨r,hr,Or.inl ⟨of_decide_eq_true hid,rfl,rfl,by simp [hok],fun _ _ _ => rfl,
          by simp [hretry]⟩⟩
      · exact ⟨r',hr,Or.inr ⟨of_decide_eq_false hid,rfl⟩⟩
    | none =>
      rw [hretry,markDeliveryFailed] at hr'
      obtain ⟨r,hr,⟨hid,rfl⟩ | ⟨hid,rfl⟩⟩ := mem_rewrite hr'
      · exact ⟨r,hr,Or.inl ⟨of_decide_eq_true hid,rfl,rfl,by simp [hok],by simp [hretry],
          fun _ _ => rfl⟩⟩
      · exact ⟨r',hr,Or.inr ⟨of_decide_eq_false hid,rfl⟩⟩

theorem Kept.rows_record (h : Kept cfg env s) (ht : t ∈ s.tasks) {o : PostOutcome}
    (hp : t.phase = .writing o) :
    ∀ r' ∈ (s.record t o).rows,
      r'.Accounted cfg.maxAttempts (⟨t.number,t.d.id,o.ok⟩ :: s.results) := by
  have hsound := h.tasks t ht
  obtain ⟨jitter,hjitter⟩ := (hsound.writing o hp).2
  intro r' hr'
  obtain ⟨r,hr,⟨hid,hrec⟩ | ⟨hid,rfl⟩⟩ := record_rows hr'
  · cases hok : o.ok with
    | true => exact (h.rows r hr).success hid.symm rfl hrec.id hrec.attempts (hrec.success hok)
    | false =>
      refine (h.rows r hr).failure hid.symm rfl hrec.id hrec.attempts ?_
      cases hretry : o.retryIn with
      | some wait => exact Or.inl (hrec.again wait hok hretry)
      | none =>
        have hlast : cfg.maxAttempts ≤ t.d.attempts+1 :=
          retryIn_eq_none.mp (hjitter.symm.trans hretry)
        rw [hid]
        exact Or.inr ⟨hrec.last hok hretry,hlast.trans (Nat.succ_le_succ hsound.tried)⟩
  · exact (h.rows r' hr).other (Ne.symm hid)

/-- Recording a result is one statement on the table. -/
theorem record_step (s : Deliveries I) (t : DeliverTask I) (o : PostOutcome) :
    ∃ e, Dispatch.Allowed s.table e ∧ s.record t o = s.table.step e ∧
      (s.record t o).claiming = s.table.claiming := by
  unfold Deliveries.record
  split
  · exact ⟨.delivered s.now t.d.id (o.status.getD 200),trivial,rfl,rfl⟩
  · exact ⟨.failed s.now t.d.id o.status o.error o.retryIn,trivial,rfl,rfl⟩

/-- A result is recorded, and the delivery is over. -/
theorem Kept.record (h : Kept cfg env s) (ht : t ∈ s.tasks) {o : PostOutcome}
    (hp : t.phase = .writing o) : Kept cfg env (s.write t o true) := by
  have hsound := h.tasks t ht
  obtain ⟨e,he,hstep,hclaiming⟩ := record_step s t o
  have hlater : Later s (s.write t o true) := by
    refine ⟨fun c hc => ?_,le_rfl,fun _ hp => hp,fun _ ha => ha,List.suffix_cons ..⟩
    show c ∈ (s.record t o).rows.map _
    rw [hstep]
    exact (Dispatch.step_content s.table e).subset hc
  have hactive : ∀ i, (s.write t o true).active i ≤ s.active i :=
    fun i => List.filter_sublist.countP_le
  refine ⟨?_,h.rows_record ht hp,fun u hu => ?_,h.distinct.sublist (List.filter_sublist.map _),
    fun a ha => ?_,?_,fun a ha => ?_,h.made,fun p hp => ?_,fun i hi => ?_,
    fun i => (hactive i).trans (h.permits i)⟩
  · show Dispatch.Numbered (s.record t o).rows
    rw [hstep]
    exact (Dispatch.step_rows h.numbered he).2
  · obtain ⟨hmem,hne⟩ := mem_others.mp hu
    refine (h.tasks u hmem).later hlater fun a ha => ?_
    rcases List.mem_cons.mp ha with rfl | ha
    · exact Or.inr (Ne.symm hne)
    · exact Or.inl ha
  · rcases List.mem_cons.mp ha with rfl | ha
    · exact hsound.fresh
    · exact h.past a ha
  · -- a task records once: it ends with its statement
    show ((⟨t.number,t.d.id,o.ok⟩ :: s.results).map Answered.task).Nodup
    rw [List.map_cons,List.nodup_cons]
    refine ⟨fun hmem => ?_,h.once⟩
    obtain ⟨a,ha,hnum⟩ := List.mem_map.mp hmem
    exact hsound.unrecorded a ha hnum
  · rcases List.mem_cons.mp ha with rfl | ha
    · exact (hsound.writing o hp).1
    · exact h.answered a ha
  · obtain ⟨c,hc,hcar⟩ := h.sent p hp
    exact ⟨c,hlater.content c hc,hcar⟩
  · have hi : ((s.record t o).claiming i).isSome = true := hi
    rw [hclaiming] at hi
    exact (Nat.add_le_add_left (hactive i) _).trans (h.free i hi)

theorem Kept.write (h : Kept cfg env s) (ht : t ∈ s.tasks) {o : PostOutcome}
    (hp : t.phase = .writing o) (committed : Bool) : Kept cfg env (s.write t o committed) := by
  cases committed with
  | true => exact h.record ht hp
  | false =>
    exact h.drop List.filter_sublist ⟨fun _ hc => hc,le_rfl,fun _ hp => hp,fun _ ha => ha,
      List.suffix_rfl⟩ h.numbered h.rows (fun _ hi => hi) rfl rfl rfl rfl rfl

theorem Kept.tick (h : Kept cfg env s) (n : Nat) : Kept cfg env { s with now := s.now+n } :=
  h.drop (List.Sublist.refl _) ⟨fun _ hc => hc,le_rfl,fun _ hp => hp,fun _ ha => ha,
    List.suffix_rfl⟩ h.numbered h.rows (fun _ hi => hi) rfl rfl rfl rfl rfl

theorem Kept.start (now : Int) : Kept cfg env (start now : Deliveries I) where
  numbered := Dispatch.Steady.empty.rows
  rows _ hr := absurd hr List.not_mem_nil
  tasks _ ht := absurd ht List.not_mem_nil
  distinct := List.nodup_nil
  past _ ha := absurd ha List.not_mem_nil
  once := List.nodup_nil
  answered _ ha := absurd ha List.not_mem_nil
  made _ ha := absurd ha List.not_mem_nil
  sent _ hp := absurd hp List.not_mem_nil
  free _ hi := nomatch hi
  permits _ := Nat.zero_le _

theorem Kept.step (h : Kept cfg env s) {e : DeliveryEvent I} (he : s.Allowed cfg e) :
    Kept cfg env (s.step cfg env e) := by
  cases e with
  | tick n => exact h.tick n
  | enqueue job event re => exact h.enqueue job event re he
  | begin i => exact h.begin he
  | claim i locked answered => exact h.claim i locked answered
  | acquire t now again timestamp => exact h.acquire he.1 now again timestamp
  | defer t committed =>
    simp only [Deliveries.step]
    split
    · exact h.defer _ committed
    · exact h
  | answer t a jitter now => exact h.answer he.1 he.2.1 a jitter now
  | write t committed =>
    simp only [Deliveries.step]
    split
    · next o hp => exact h.write he.1 hp committed
    · exact h
  | crash i => exact h.crash i

/-- What every row of the outbox, every request and every instance can be trusted with. -/
structure AtLeastOnce (cfg : DeliveryConfig) (env : DeliveryEnv) (s : Deliveries I) : Prop where
  /-- Attempts are counted once each, and only when the receiver was asked. -/
  counted : ∀ r ∈ s.table.rows,
    r.attempts = (s.results.countP fun a => a.id = r.row.id) ∧
      r.attempts ≤ s.answers.countP fun a => a.id = r.row.id
  /-- What is delivered was accepted by its receiver, and what is dead was refused often enough. -/
  delivered : ∀ r ∈ s.table.rows, r.row.status = .delivered →
    ∃ a ∈ s.answers, a.id = r.row.id ∧ a.ok = true
  dead : ∀ r ∈ s.table.rows, r.row.status = .dead → cfg.maxAttempts ≤ failures s.answers r.row.id
  /-- An answer is one to a request, and a request says what its row says. -/
  made : ∀ a ∈ s.answers, ∃ p ∈ s.posts, p.task = a.task ∧ p.eventId = a.id
  sent : ∀ p ∈ s.posts, ∃ r ∈ s.table.rows, Post.Carries env p r.content
  permits : ∀ i, s.active i ≤ cfg.permits

theorem Kept.atLeastOnce (h : Kept cfg env s) : AtLeastOnce cfg env s := by
  have hsub : s.results.Subperm s.answers :=
    (List.Nodup.of_map _ h.once).subperm fun a ha => h.answered a ha
  refine ⟨fun r hr => ⟨(h.rows r hr).counted,?_⟩,fun r hr hs => ?_,fun r hr hs => ?_,h.made,
    fun p hp => ?_,h.permits⟩
  · rw [(h.rows r hr).counted]
    exact hsub.countP_le _
  · obtain ⟨a,ha,hid,hok⟩ := (h.rows r hr).delivered hs
    exact ⟨a,h.answered a ha,hid,hok⟩
  · exact ((h.rows r hr).dead hs).trans (hsub.countP_le _)
  · obtain ⟨c,hc,hcar⟩ := h.sent p hp
    obtain ⟨r,hr,rfl⟩ := List.mem_map.mp hc
    exact ⟨r,hr,hcar⟩

/-- However any number of instances claim, deliver, record, lose results and die: a delivery is
counted as attempted no more often than its receiver answered, ends as delivered only when it was
accepted and as dead only after as many refusals as are configured; and a request carries exactly
what the outbox says. -/
theorem webhooks_at_least_once (cfg : DeliveryConfig) (env : DeliveryEnv) {now : Int}
    (h : (machine cfg env).Reaches (start now) s) : AtLeastOnce cfg env s := by
  have hkept : Kept cfg env s := h.invariant (.start now) fun _ _ hs he => hs.step he
  exact hkept.atLeastOnce

end Kept

def retryCfg : DeliveryConfig := ⟨4,2,1000,3,100,1000⟩

def plainEnv : DeliveryEnv := ⟨id,fun p => if p.sequence = 1 then "first" else "later",fun _ => id⟩

/-- A receiver refuses once; its next answer is an acceptance that cannot be recorded, so it gets
the event a third time. -/
def retried : List (DeliveryEvent Unit) :=
  let job := { JobRow.new 7 Sample.request with webhookSeq := 1 }
  (Dispatch.empty.step (.enqueue 0 job .included false) : Dispatch Unit).rows.flatMap fun r =>
    let attempt (n tried : Nat) (since : Int) (a : PostAnswer) (committed : Bool) :
        List (DeliveryEvent Unit) :=
      let t : DeliverTask Unit := ⟨n,(),{ r.delivery with attempts := tried },since,.acquiring⟩
      [.begin (),.claim () [] true,.acquire t 0 0 1700000000,
        .answer { t with phase := .posting } a 0 0,
        .write { t with phase := .writing (a.outcome retryCfg tried 0) } committed]
    .enqueue job .included false :: attempt 0 0 0 (.response 503 "503 Service Unavailable") true++
      .tick 100000000 :: attempt 1 1 100000000 (.response 200 "200 OK") false++
      .tick 31000000000 :: attempt 2 1 31100000000 (.response 200 "200 OK") true

theorem webhooks_at_least_once_retried :
    (machine retryCfg plainEnv).Runs (start 0) retried ∧
    ((retried.foldl (step retryCfg plainEnv) (start 0)).table.rows.map fun r =>
      (r.row.status,r.attempts)) = [(.delivered,2)] ∧
    (retried.foldl (step retryCfg plainEnv) (start 0)).posts.length = 3 ∧
    AtLeastOnce retryCfg plainEnv (retried.foldl (step retryCfg plainEnv) (start 0)) := by
  have hrun : (machine retryCfg plainEnv).Runs (start 0) retried := by decide +kernel
  exact ⟨hrun,by decide +kernel,by decide +kernel,webhooks_at_least_once _ _ hrun.reaches⟩

end Deliveries

end GumEngine
