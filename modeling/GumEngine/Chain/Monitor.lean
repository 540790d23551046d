import GumEngine.Pair.Gates

/-!
# The monitor of a chain

`run` of `chain/monitor.rs` with `observe_head` of `chain/mod.rs`, on a clock in milliseconds.
Blocks and receipts seen by anyone move the head at any time; the monitor probes when it has
heard nothing for a while, and calls an outage when things have looked wrong for long enough.
Beside its state stand every sighting of the head and every probe with its outcome, which the
code does not keep.
-/

namespace GumEngine
open Transition

inductive LivenessMode
  /-- The chain always makes blocks: a head that stops moving is an outage. -/
  | headAdvance
  /-- Blocks appear only when there are transactions: all that counts is that the RPC answers. -/
  | rpcResponsive
deriving DecidableEq, Repr

structure MonitorTunables where
  idleProbeInterval : Nat
  degradedProbeInterval : Nat
  stallWarn : Nat
  stallOutage : Nat
  liveness : LivenessMode
deriving DecidableEq, Repr

def MonitorTunables.idle (t : MonitorTunables) : Nat := max t.idleProbeInterval 1000

def MonitorTunables.fast (t : MonitorTunables) : Nat := max t.degradedProbeInterval 500

structure HealthView where
  status : ChainStatus
  headNumber : Nat
  headHash : Option B256
  lastObserved : Option Nat
  lastAdvance : Option Nat
deriving DecidableEq, Repr

namespace HealthView

variable (h : HealthView)

def new : HealthView := ⟨.healthy,0,none,none,none⟩

/-- What `observe_head` returns: the sighting moves the head. -/
def advances (number : Nat) : Bool := number > h.headNumber || h.lastAdvance.isNone

def observeHead (now number : Nat) (hash : Option B256) : HealthView :=
  if h.advances number then
    { h with
      headNumber := max h.headNumber number
      headHash := hash.or h.headHash
      lastObserved := some now
      lastAdvance := some now }
  else { h with lastObserved := some now }

end HealthView

/-- A sighting of the head. -/
structure Sighting where
  time : Nat
  number : Nat
deriving DecidableEq, Repr

/-- A probe that has been answered, and what the monitor made of it. -/
structure ProbeOutcome where
  time : Nat
  good : Bool
deriving DecidableEq, Repr

inductive ProbeAnswer
  | failed
  | null
  | block (number : Nat) (hash : B256)
deriving DecidableEq, Repr

/-- Where the loop is: asleep until a time, waiting for the answer to a probe with the view it
took before, or with a bad answer in hand. -/
inductive MonitorPhase
  | starting
  | waiting (due : Nat)
  | probing (sent : Nat) (before : HealthView)
  | judging (answered : Nat)
  | stopped
deriving DecidableEq, Repr

namespace MonitorPhase

def isWaiting : MonitorPhase → Bool
  | waiting _ => true
  | _ => false

def isProbing : MonitorPhase → Bool
  | probing _ _ => true
  | _ => false

def isJudging : MonitorPhase → Bool
  | judging _ => true
  | _ => false

theorem isWaiting_iff {p : MonitorPhase} : p.isWaiting = true ↔ ∃ due, p = waiting due := by
  cases p <;> simp [isWaiting]

theorem isProbing_iff {p : MonitorPhase} :
    p.isProbing = true ↔ ∃ sent before, p = probing sent before := by
  cases p <;> simp [isProbing]

theorem isJudging_iff {p : MonitorPhase} : p.isJudging = true ↔ ∃ answered, p = judging answered := by
  cases p <;> simp [isJudging]

end MonitorPhase

structure ChainMonitor where
  now : Nat
  health : HealthView
  troubleSince : Option Nat
  phase : MonitorPhase
  began : Nat
  seen : List Sighting
  probes : List ProbeOutcome
deriving DecidableEq, Repr

inductive MonitorEvent
  | tick (n : Nat)
  | observeHead (number : Nat) (hash : Option B256)
  | begin
  /-- The sleep is over or someone asked for a probe. -/
  | wake (breakerOpen : Bool)
  | answer (a : ProbeAnswer)
  | judge
  | shutdown
deriving DecidableEq, Repr

namespace ChainMonitor

variable (t : MonitorTunables) (s : ChainMonitor)

def start (now : Nat) : ChainMonitor := ⟨now,.new,none,.starting,now,[],[]⟩

def observeHead (number : Nat) (hash : Option B256) : ChainMonitor :=
  { s with health := s.health.observeHead s.now number hash, seen := ⟨s.now,number⟩ :: s.seen }

def setStatus (status : ChainStatus) : ChainMonitor :=
  { s with health := { s.health with status := status } }

/-- Nothing looks wrong: the monitor sleeps as long as the chain stays silent. -/
def calm : Bool := s.health.status = .healthy && s.troubleSince.isNone

def wait : Nat :=
  if s.calm then max (t.idle-(s.health.lastObserved.elim t.idle fun o => s.now-o)) 250
  else t.fast

/-- The top of the loop. -/
def loop : ChainMonitor := { s with phase := .waiting (s.now+s.wait t) }

def wake (breakerOpen : Bool) : ChainMonitor :=
  -- traffic is telling us everything we need
  if s.calm && !breakerOpen && s.health.lastObserved.any (fun o => s.now-o < t.idle) then s.loop t
  else { s with phase := .probing s.now s.health }

/-- An unchanged head is only suspicious once it has been unchanged for long enough. -/
def isGood (before : HealthView) (number : Nat) : Bool :=
  match t.liveness with
  | .rpcResponsive => true
  | .headAdvance =>
    before.advances number || before.lastAdvance.elim 0 (s.now-·) < t.stallWarn

/-- Good news: `on_recovered` when the chain was not healthy. -/
def recovered : ChainMonitor :=
  ({ s with troubleSince := none, probes := ⟨s.now,true⟩ :: s.probes }.setStatus .healthy).loop t

def failed : ChainMonitor :=
  { s with phase := .judging s.now, probes := ⟨s.now,false⟩ :: s.probes }

def answer (before : HealthView) : ProbeAnswer → ChainMonitor
  | .block number hash =>
    if s.isGood t before number then (s.observeHead number (some hash)).recovered t
    else (s.observeHead number (some hash)).failed
  | .null => s.failed
  | .failed => s.failed

/-- For a stalled head the clock started when it last moved, not when we noticed. -/
def stalledFor (since : Nat) : Nat :=
  match t.liveness with
  | .headAdvance => max (s.health.lastAdvance.elim (s.now-since) (s.now-·)) (s.now-since)
  | .rpcResponsive => s.now-since

/-- What a bad answer does to the status. -/
def verdict (since : Nat) : ChainStatus :=
  if s.stalledFor t since ≥ t.stallOutage && s.health.status ≠ .down then .down
  else if s.stalledFor t since ≥ t.stallWarn && s.health.status = .healthy then .degraded
  else s.health.status

def judge : ChainMonitor :=
  let since := s.troubleSince.getD s.now
  ({ s with troubleSince := some since }.setStatus (s.verdict t since)).loop t

def step : MonitorEvent → ChainMonitor
  | .tick n => { s with now := s.now+n }
  | .observeHead number hash => s.observeHead number hash
  | .begin => { s with began := s.now }.loop t
  | .wake breakerOpen => s.wake t breakerOpen
  | .answer a =>
    match s.phase with
    | .probing _ before => s.answer t before a
    | _ => s
  | .judge => s.judge t
  | .shutdown => { s with phase := .stopped }

/-- Each event of the loop in its place; the clock and the sightings go on at any time. -/
def Allowed : MonitorEvent → Prop
  | .begin => s.phase = .starting
  | .wake _ | .shutdown => s.phase.isWaiting = true
  | .answer _ => s.phase.isProbing = true
  | .judge => s.phase.isJudging = true
  | .tick _ | .observeHead _ _ => True

instance : ∀ e, Decidable (s.Allowed e)
  | .begin => inferInstanceAs (Decidable (_ = _))
  | .wake _ | .shutdown | .answer _ | .judge => inferInstanceAs (Decidable (_ = true))
  | .tick _ | .observeHead _ _ => inferInstanceAs (Decidable True)

def machine : Machine ChainMonitor MonitorEvent := ⟨Allowed,fun s => s.step t⟩

instance (e : MonitorEvent) : Decidable ((machine t).allowed s e) :=
  inferInstanceAs (Decidable (s.Allowed e))

/-! ## What has been seen -/

/-- The first of an unbroken row of failed probes is `after` old. -/
def FailingFor (after : Nat) : Prop :=
  ∃ p ∈ s.probes, p.good = false ∧ p.time+after ≤ s.now ∧
    ∀ q ∈ s.probes, p.time < q.time → q.good = false

/-- The highest block seen was seen `after` ago. -/
def StillFor (after : Nat) : Prop :=
  ∃ y ∈ s.seen, y.time+after ≤ s.now ∧ ∀ x ∈ s.seen, x.number ≤ y.number

/-- The last probe failed, and the chain has given no better sign for `after`. -/
def Wrong (after : Nat) : Prop :=
  (∃ p ∈ s.probes.head?, p.good = false) ∧
    (s.FailingFor after ∨ t.liveness = .headAdvance ∧ s.StillFor after)

/-- The block is above all that were seen before the probe was sent, or the head has moved
lately. -/
def Moving (sent number : Nat) : Prop :=
  (∀ x ∈ s.seen, x.time < sent → x.number < number) ∨
    ∃ x ∈ s.seen, s.now < x.time+t.stallWarn ∧ ∀ y ∈ s.seen, y.time < x.time → y.number < x.number

/-- What it takes to change the status. -/
def Justified (e : MonitorEvent) : ChainStatus → ChainStatus → Prop
  | _,.down => e = .judge ∧ s.Wrong t t.stallOutage
  | .healthy,.degraded => e = .judge ∧ s.Wrong t t.stallWarn
  | _,.healthy => ∃ sent before number hash, s.phase = .probing sent before ∧
      e = .answer (.block number hash) ∧ (t.liveness = .headAdvance → s.Moving t sent number)
  | _,.degraded => False

end ChainMonitor

/-- The view of the head and the sightings it comes from. -/
structure HealthView.Covers (h : HealthView) (seen : List Sighting) : Prop where
  head : ∀ x ∈ seen, x.number ≤ h.headNumber
  unseen : h.lastAdvance = none → seen = [] ∧ h.headNumber = 0
  observed : ∀ o ∈ h.lastObserved, ∃ x ∈ seen, x.time = o
  advance : ∀ a ∈ h.lastAdvance, ∃ x ∈ seen, x.time = a ∧ x.number = h.headNumber ∧
    ∀ y ∈ seen, y.time < a → y.number < x.number

section Covers

variable {h : HealthView} {seen : List Sighting} {now number : Nat} {hash : Option B256}

theorem HealthView.advances_iff :
    h.advances number = true ↔ h.headNumber < number ∨ h.lastAdvance = none := by
  simp [advances]

@[simp] theorem HealthView.observeHead_lastObserved :
    (h.observeHead now number hash).lastObserved = some now := by
  unfold observeHead
  split <;> rfl

@[simp] theorem HealthView.observeHead_status :
    (h.observeHead now number hash).status = h.status := by
  unfold observeHead
  split <;> rfl

theorem HealthView.Covers.new : HealthView.new.Covers [] where
  head := by simp
  unseen _ := ⟨rfl,rfl⟩
  observed := by simp [HealthView.new]
  advance := by simp [HealthView.new]

/-- A block above the others, or the first one. -/
theorem HealthView.Covers.above (hc : h.Covers seen) (ha : h.advances number = true) {y : Sighting}
    (hy : y ∈ seen) : y.number < number := by
  rcases advances_iff.mp ha with hlt | hnone
  · exact (hc.head y hy).trans_lt hlt
  · rw [(hc.unseen hnone).1] at hy
    exact absurd hy List.not_mem_nil

theorem HealthView.Covers.observeHead (hc : h.Covers seen) (ht : ∀ x ∈ seen, x.time ≤ now) :
    (h.observeHead now number hash).Covers (⟨now,number⟩ :: seen) := by
  have hobs : ∀ o ∈ some now, ∃ x ∈ (⟨now,number⟩ : Sighting) :: seen, x.time = o := by
    intro o ho
    exact ⟨_,List.mem_cons_self,Option.mem_some_iff.mp ho⟩
  by_cases ha : h.advances number = true
  · have hhead : max h.headNumber number = number := by
      rcases advances_iff.mp ha with hlt | hnone
      · omega
      · rw [(hc.unseen hnone).2]
        omega
    have heq : h.observeHead now number hash = { h with
        headNumber := number
        headHash := hash.or h.headHash
        lastObserved := some now
        lastAdvance := some now } := by
      rw [HealthView.observeHead,if_pos ha,hhead]
    rw [heq]
    refine ⟨?_,by simp,hobs,?_⟩
    · intro x hx
      rcases List.mem_cons.mp hx with rfl | hx
      · exact le_rfl
      · exact (hc.above ha hx).le
    · intro a hnow
      obtain rfl := Option.mem_some_iff.mp hnow
      refine ⟨_,List.mem_cons_self,rfl,rfl,fun y hy hlt => ?_⟩
      rcases List.mem_cons.mp hy with rfl | hy
      · exact absurd hlt (lt_irrefl _)
      · exact hc.above ha hy
  · have heq : h.observeHead now number hash = { h with lastObserved := some now } := by
      rw [HealthView.observeHead,if_neg ha]
    have hle : number ≤ h.headNumber := by
      rw [advances_iff] at ha
      omega
    rw [heq]
    refine ⟨?_,fun hnone => absurd (advances_iff.mpr (Or.inr hnone)) ha,hobs,?_⟩
    · intro x hx
      rcases List.mem_cons.mp hx with rfl | hx
      · exact hle
      · exact hc.head x hx
    · intro a hadv
      obtain ⟨x,hx,rfl,hnum,hall⟩ := hc.advance a hadv
      refine ⟨x,List.mem_cons_of_mem _ hx,rfl,hnum,fun y hy hlt => ?_⟩
      rcases List.mem_cons.mp hy with rfl | hy
      · exact absurd (ht x hx) (Nat.not_le.mpr hlt)
      · exact hall y hy hlt

end Covers

namespace ChainMonitor

/-- What the history says about the state, whatever the loop is doing. -/
structure Kept (s : ChainMonitor) : Prop where
  covers : s.health.Covers s.seen
  seen : ∀ x ∈ s.seen, x.time ≤ s.now
  probes : ∀ p ∈ s.probes, p.time ≤ s.now
  trouble : ∀ since ∈ s.troubleSince, since ≤ s.now ∧ ∃ p ∈ s.probes, p.good = false ∧
    p.time ≤ since ∧ ∀ q ∈ s.probes, p.time < q.time → q.good = false

/-- The view a probe was sent with covers what had been seen by then. -/
structure SentWith (s : ChainMonitor) (sent : Nat) (before : HealthView) : Prop where
  past : sent ≤ s.now
  covers : ∃ old, before.Covers old ∧ (∀ x ∈ old, x ∈ s.seen ∧ x.time ≤ sent) ∧
    ∀ x ∈ s.seen, x.time < sent → x ∈ old

structure Recorded (s : ChainMonitor) : Prop extends Kept s where
  probing : ∀ sent before, s.phase = .probing sent before → s.SentWith sent before
  judging : ∀ answered, s.phase = .judging answered → answered ≤ s.now ∧
    s.probes.head? = some ⟨answered,false⟩ ∧ ∀ q ∈ s.probes, q.time ≤ answered

section Recorded

variable {t : MonitorTunables} {s : ChainMonitor} {e : MonitorEvent}

theorem Kept.start (now : Nat) : Kept (start now) where
  covers := .new
  seen := by simp [ChainMonitor.start]
  probes := by simp [ChainMonitor.start]
  trouble := by simp [ChainMonitor.start]

/-- At the top of the loop nothing is in hand. -/
theorem Kept.loop (h : Kept s) : Recorded (s.loop t) :=
  { h with
    probing := fun _ _ hp => nomatch hp
    judging := fun _ hp => nomatch hp }

theorem Kept.setStatus (h : Kept s) (status : ChainStatus) : Kept (s.setStatus status) where
  covers := ⟨h.covers.head,h.covers.unseen,h.covers.observed,h.covers.advance⟩
  seen := h.seen
  probes := h.probes
  trouble := h.trouble

theorem Kept.observeHead (h : Kept s) (number : Nat) (hash : Option B256) :
    Kept (s.observeHead number hash) where
  covers := h.covers.observeHead h.seen
  seen x hx := by
    rcases List.mem_cons.mp hx with rfl | hx
    · exact le_rfl
    · exact h.seen x hx
  probes := h.probes
  trouble := h.trouble

theorem Kept.tick (h : Kept s) (n : Nat) : Kept { s with now := s.now+n } where
  covers := h.covers
  seen x hx := (h.seen x hx).trans (Nat.le_add_right ..)
  probes p hp := (h.probes p hp).trans (Nat.le_add_right ..)
  trouble since hs := ⟨(h.trouble since hs).1.trans (Nat.le_add_right ..),(h.trouble since hs).2⟩

theorem SentWith.tick {sent : Nat} {before : HealthView} (h : s.SentWith sent before) (n : Nat) :
    SentWith { s with now := s.now+n } sent before :=
  ⟨h.past.trans (Nat.le_add_right ..),h.covers⟩

/-- What is seen after the probe went out is not older than it. -/
theorem SentWith.observeHead {sent : Nat} {before : HealthView} (h : s.SentWith sent before)
    (number : Nat) (hash : Option B256) : (s.observeHead number hash).SentWith sent before := by
  obtain ⟨old,hcov,hold,hsent⟩ := h.covers
  refine ⟨h.past,old,hcov,fun x hx => ⟨List.mem_cons_of_mem _ (hold x hx).1,(hold x hx).2⟩,?_⟩
  intro x hx hlt
  rcases List.mem_cons.mp hx with rfl | hx
  · exact absurd h.past (Nat.not_le.mpr hlt)
  · exact hsent x hx hlt

theorem Recorded.start (now : Nat) : Recorded (start now) :=
  { Kept.start now with
    probing := fun _ _ hp => nomatch hp
    judging := fun _ hp => nomatch hp }

theorem Recorded.tick (h : Recorded s) (n : Nat) : Recorded { s with now := s.now+n } :=
  { h.toKept.tick n with
    probing := fun sent before hp => (h.probing sent before hp).tick n
    judging := fun answered hp =>
      ⟨(h.judging answered hp).1.trans (Nat.le_add_right ..),(h.judging answered hp).2⟩ }

theorem Recorded.observeHead (h : Recorded s) (number : Nat) (hash : Option B256) :
    Recorded (s.observeHead number hash) :=
  { h.toKept.observeHead number hash with
    probing := fun sent before hp => (h.probing sent before hp).observeHead number hash
    judging := h.judging }

theorem Kept.wake (h : Kept s) (breakerOpen : Bool) : Recorded (s.wake t breakerOpen) := by
  unfold ChainMonitor.wake
  split
  · exact h.loop
  · refine { h with probing := ?_, judging := fun _ hp => nomatch hp }
    rintro sent before ⟨⟩
    exact ⟨le_rfl,s.seen,h.covers,fun x hx => ⟨hx,h.seen x hx⟩,fun x hx _ => hx⟩

theorem Kept.failed (h : Kept s) : Recorded s.failed where
  covers := h.covers
  seen := h.seen
  probes p hp := by
    rcases List.mem_cons.mp hp with rfl | hp
    · exact le_rfl
    · exact h.probes p hp
  trouble since hs := by
    obtain ⟨hle,p,hp,hbad,hpt,hall⟩ := h.trouble since hs
    refine ⟨hle,p,List.mem_cons_of_mem _ hp,hbad,hpt,fun q hq hlt => ?_⟩
    rcases List.mem_cons.mp hq with rfl | hq
    · rfl
    · exact hall q hq hlt
  probing _ _ hp := nomatch hp
  judging := by
    rintro answered ⟨⟩
    refine ⟨le_rfl,rfl,fun q hq => ?_⟩
    rcases List.mem_cons.mp hq with rfl | hq
    · exact le_rfl
    · exact h.probes q hq

theorem Kept.recovered (h : Kept s) : Recorded (s.recovered t) := by
  have hkept : Kept { s with troubleSince := none, probes := ⟨s.now,true⟩ :: s.probes } := by
    refine ⟨h.covers,h.seen,fun p hp => ?_,fun _ hs => nomatch hs⟩
    rcases List.mem_cons.mp hp with rfl | hp
    · exact le_rfl
    · exact h.probes p hp
  exact (hkept.setStatus _).loop

theorem Kept.answer (h : Kept s) (before : HealthView) (a : ProbeAnswer) :
    Recorded (s.answer t before a) := by
  cases a with
  | failed => exact h.failed
  | null => exact h.failed
  | block number hash =>
    simp only [ChainMonitor.answer]
    split
    · exact (h.observeHead number hash).recovered
    · exact (h.observeHead number hash).failed

/-- The time trouble began, as of this bad answer. -/
theorem Recorded.since (h : Recorded s) {answered : Nat} (hp : s.phase = .judging answered) :
    s.troubleSince.getD s.now ≤ s.now ∧ ∃ p ∈ s.probes, p.good = false ∧
      p.time ≤ s.troubleSince.getD s.now ∧ ∀ q ∈ s.probes, p.time < q.time → q.good = false := by
  obtain ⟨hle,hhead,hlast⟩ := h.judging answered hp
  cases htr : s.troubleSince with
  | some since => exact h.trouble since htr
  | none =>
    refine ⟨le_rfl,_,List.mem_of_mem_head? hhead,rfl,hle,fun q hq hlt => ?_⟩
    exact absurd (hlast q hq) (Nat.not_le.mpr hlt)

theorem Recorded.judge (h : Recorded s) (hp : s.phase.isJudging = true) :
    Recorded (s.judge t) := by
  obtain ⟨answered,hp⟩ := MonitorPhase.isJudging_iff.mp hp
  have hkept : Kept { s with troubleSince := some (s.troubleSince.getD s.now) } := by
    refine ⟨h.covers,h.seen,h.probes,fun since hs => ?_⟩
    obtain rfl := Option.mem_some_iff.mp hs
    exact h.since hp
  exact (hkept.setStatus _).loop

theorem Recorded.step (h : Recorded s) (he : s.Allowed e) : Recorded (s.step t e) := by
  cases e with
  | tick n => exact h.tick n
  | observeHead number hash => exact h.observeHead number hash
  | begin => exact Kept.loop ⟨h.covers,h.seen,h.probes,h.trouble⟩
  | wake breakerOpen => exact h.toKept.wake breakerOpen
  | answer a =>
    simp only [ChainMonitor.step]
    split
    · exact h.toKept.answer _ a
    · exact h
  | judge => exact h.judge he
  | shutdown =>
    exact { h.toKept with
      probing := fun _ _ hp => nomatch hp
      judging := fun _ hp => nomatch hp }

theorem recorded {now : Nat} (h : (machine t).Reaches (start now) s) : Recorded s :=
  h.invariant (.start now) fun _ _ hs he => hs.step he

/-! ## Why the status changes -/

@[simp] theorem loop_health : (s.loop t).health = s.health := rfl

@[simp] theorem failed_health : s.failed.health = s.health := rfl

@[simp] theorem observeHead_status (number : Nat) (hash : Option B256) :
    (s.observeHead number hash).health.status = s.health.status :=
  HealthView.observeHead_status

@[simp] theorem wake_health (breakerOpen : Bool) : (s.wake t breakerOpen).health = s.health := by
  unfold ChainMonitor.wake
  split <;> rfl

@[simp] theorem recovered_status : (s.recovered t).health.status = .healthy := rfl

/-- Only a good block changes the status when an answer comes. -/
theorem answer_status {before : HealthView} {a : ProbeAnswer}
    (hne : (s.answer t before a).health.status ≠ s.health.status) :
    ∃ number hash, a = .block number hash ∧ s.isGood t before number = true ∧
      (s.answer t before a).health.status = .healthy := by
  cases a with
  | failed => exact absurd rfl hne
  | null => exact absurd rfl hne
  | block number hash =>
    simp only [ChainMonitor.answer] at hne ⊢
    by_cases hg : s.isGood t before number = true
    · rw [if_pos hg]
      exact ⟨number,hash,rfl,hg,recovered_status⟩
    · rw [if_neg hg,failed_health,observeHead_status] at hne
      exact absurd rfl hne

theorem SentWith.moving {sent number : Nat} {before : HealthView} (h : s.SentWith sent before)
    (hg : s.isGood t before number = true) (hl : t.liveness = .headAdvance) :
    s.Moving t sent number := by
  obtain ⟨old,hcov,hold,hsent⟩ := h.covers
  simp only [isGood,hl,Bool.or_eq_true,decide_eq_true_eq] at hg
  by_cases ha : before.advances number = true
  · exact Or.inl fun x hx hlt => hcov.above ha (hsent x hx hlt)
  cases hlast : before.lastAdvance with
  | none => exact absurd (HealthView.advances_iff.mpr (Or.inr hlast)) ha
  | some a =>
    have hrecent : s.now-a < t.stallWarn := by simpa [hlast] using hg.resolve_left ha
    obtain ⟨x,hx,rfl,-,hall⟩ := hcov.advance a hlast
    refine Or.inr ⟨x,(hold x hx).1,by omega,fun y hy hlt => hall y (hsent y hy ?_) hlt⟩
    exact hlt.trans_le (hold x hx).2

/-- A bad answer whose clock has run for `after`. -/
theorem Recorded.wrong (h : Recorded s) {answered after : Nat} (hp : s.phase = .judging answered)
    (hafter : after ≤ s.stalledFor t (s.troubleSince.getD s.now)) : s.Wrong t after := by
  refine ⟨⟨_,(h.judging answered hp).2.1,rfl⟩,?_⟩
  obtain ⟨hle,p,hp,hbad,hpt,hall⟩ := h.since hp
  by_cases hs : after ≤ s.now-s.troubleSince.getD s.now
  · exact Or.inl ⟨p,hp,hbad,by omega,hall⟩
  cases hl : t.liveness with
  | rpcResponsive => exact absurd (by simpa [stalledFor,hl] using hafter) hs
  | headAdvance =>
    simp only [stalledFor,hl] at hafter
    cases hlast : s.health.lastAdvance with
    | none =>
      simp only [hlast,Option.elim_none,max_self] at hafter
      exact absurd hafter hs
    | some a =>
      simp only [hlast,Option.elim_some] at hafter
      obtain ⟨y,hy,rfl,hnum,-⟩ := h.covers.advance a hlast
      have hpast : y.time ≤ s.now := h.seen y hy
      exact Or.inr ⟨rfl,y,hy,by omega,fun x hx => hnum ▸ h.covers.head x hx⟩

theorem Recorded.justified_judge (h : Recorded s) {answered : Nat} (hp : s.phase = .judging answered)
    (hne : s.verdict t (s.troubleSince.getD s.now) ≠ s.health.status) :
    s.Justified t .judge s.health.status (s.verdict t (s.troubleSince.getD s.now)) := by
  unfold verdict at hne ⊢
  split
  · next hc =>
    simp only [ge_iff_le,Bool.and_eq_true,decide_eq_true_eq] at hc
    exact ⟨rfl,h.wrong hp hc.1⟩
  · next hc =>
    rw [if_neg hc] at hne
    split
    · next hw =>
      simp only [ge_iff_le,Bool.and_eq_true,decide_eq_true_eq] at hw
      rw [hw.2]
      exact ⟨rfl,h.wrong hp hw.1⟩
    · next hw =>
      rw [if_neg hw] at hne
      exact absurd rfl hne

theorem Recorded.justified (h : Recorded s) (he : s.Allowed e)
    (hne : (s.step t e).health.status ≠ s.health.status) :
    s.Justified t e s.health.status (s.step t e).health.status := by
  cases e with
  | tick n => exact absurd rfl hne
  | observeHead number hash => exact absurd (observeHead_status number hash) hne
  | begin => exact absurd rfl hne
  | wake breakerOpen => exact absurd (congrArg HealthView.status (wake_health breakerOpen)) hne
  | shutdown => exact absurd rfl hne
  | judge =>
    obtain ⟨answered,hp⟩ := MonitorPhase.isJudging_iff.mp he
    exact h.justified_judge hp hne
  | answer a =>
    cases hphase : s.phase with
    | probing sent before =>
      simp only [ChainMonitor.step,hphase] at hne ⊢
      obtain ⟨number,hash,rfl,hg,hst⟩ := answer_status hne
      rw [hst] at hne ⊢
      have hmoving := (h.probing sent before hphase).moving (t := t) hg
      cases hs : s.health.status with
      | healthy => exact absurd hs.symm hne
      | degraded => exact ⟨sent,before,number,hash,hphase,rfl,hmoving⟩
      | down => exact ⟨sent,before,number,hash,hphase,rfl,hmoving⟩
    | _ => simp [Allowed,hphase,MonitorPhase.isProbing] at he

/-- In every reachable state: a chain is called down or degraded only after a failed probe, when
every probe has failed for the configured time or, where blocks always come, the highest block
seen is that old; and it is called healthy again only when a probe brings a block, which where
blocks always come is a new one or comes shortly after one. -/
theorem status_change_justified (t : MonitorTunables) {now : Nat} {s : ChainMonitor}
    {e : MonitorEvent} (h : (machine t).Reaches (start now) s) (he : (machine t).allowed s e)
    (hne : (s.step t e).health.status ≠ s.health.status) :
    s.Justified t e s.health.status (s.step t e).health.status :=
  (recorded h).justified he hne

end Recorded

/-- A chain that makes blocks: a minute of silence, and one probe that fails. -/
def quietMinute : List MonitorEvent :=
  [.begin,.observeHead 100 none,.tick 250,.wake false,.tick 59750,.wake false,.answer .failed]

theorem status_change_justified_one_probe :
    (machine ⟨60000,5000,5000,15000,.headAdvance⟩).Runs (start 0) quietMinute ∧
    ((quietMinute.foldl (step ⟨60000,5000,5000,15000,.headAdvance⟩) (start 0)).step
      ⟨60000,5000,5000,15000,.headAdvance⟩ .judge).health.status = .down ∧
    (quietMinute.foldl (step ⟨60000,5000,5000,15000,.headAdvance⟩) (start 0)).Justified
      ⟨60000,5000,5000,15000,.headAdvance⟩ .judge .healthy .down := by
  have hrun : (machine ⟨60000,5000,5000,15000,.headAdvance⟩).Runs (start 0) quietMinute := by decide
  exact ⟨hrun,by decide,status_change_justified _ hrun.reaches
    (show MonitorPhase.isJudging _ = true by decide) (by decide)⟩

end ChainMonitor

end GumEngine
