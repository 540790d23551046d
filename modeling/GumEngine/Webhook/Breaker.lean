import GumEngine.Transition.Machine

/-!
# The breaker of webhook hosts

`Hosts` of `webhook.rs`: a cap on the deliveries to one host and a breaker for a host that keeps
failing. `Lane` is one host on its own; the map of all hosts is compared with it. Times are in
nanoseconds.
-/

namespace GumEngine
open Transition

structure HostState where
  inFlight : Nat := 0
  consecutiveFailures : Nat := 0
  openUntil : Option Nat := none
deriving DecidableEq, Repr

namespace HostState

def reserve (max : Nat) (s : HostState) : Except Nat Unit × HostState :=
  if s.inFlight ≥ max then (.error 500000000,s) else (.ok (),{ s with inFlight := s.inFlight+1 })

/-- Reserves a slot, or says how long to wait; the clock is read a second time for that. -/
def tryAcquire (max : Nat) (s : HostState) (now again : Nat) : Except Nat Unit × HostState :=
  match s.openUntil with
  | some til =>
    if now < til then (.error (til-again),s)
    -- half-open: let one through
    else { s with openUntil := none }.reserve max
  | none => s.reserve max

/-- How long a failure opens the breaker, if it does. -/
def opens (s : HostState) : Option Nat :=
  let failures := s.consecutiveFailures+1
  if failures ≥ 5 then some (min (5 <<< min (failures-5) 5) 120*1000000000) else none

def release (s : HostState) (now : Nat) (success : Bool) : HostState :=
  let s := { s with inFlight := s.inFlight-1 }
  if success then { s with consecutiveFailures := 0 }
  else
    { s with
      consecutiveFailures := s.consecutiveFailures+1
      openUntil := (s.opens.map (now+·)).or s.openUntil }

/-- Kept when the map is pruned. -/
def kept (s : HostState) : Bool := s.inFlight > 0 || s.openUntil.isSome

section Spec

variable {max now again til d : Nat} {s : HostState}

theorem tryAcquire_closed (h : s.openUntil = none) :
    s.tryAcquire max now again = s.reserve max := by
  simp only [tryAcquire,h]

theorem tryAcquire_open (h : s.openUntil = some til) (hlt : now < til) :
    s.tryAcquire max now again = (.error (til-again),s) := by
  simp only [tryAcquire,h,hlt,if_true]

theorem tryAcquire_expired (h : s.openUntil = some til) (hle : til ≤ now) :
    s.tryAcquire max now again = { s with openUntil := none }.reserve max := by
  simp only [tryAcquire,h,not_lt.2 hle,if_false]

theorem openUntil_of_opens (h : s.opens = some d) :
    (s.release now false).openUntil = some (now+d) := by
  have h' : opens { s with inFlight := s.inFlight-1 } = some d := h
  simp only [release,h',Bool.false_eq_true,if_false,Option.map_some,Option.some_or]

theorem openUntil_of_not_opens {success : Bool} (h : success = true ∨ s.opens = none) :
    (s.release now success).openUntil = s.openUntil := by
  cases success with
  | true => rfl
  | false =>
    have h' : opens { s with inFlight := s.inFlight-1 } = none := h.resolve_left nofun
    simp only [release,h',Bool.false_eq_true,if_false,Option.map_none,Option.none_or]

theorem release_inFlight (s : HostState) (now : Nat) (success : Bool) :
    (s.release now success).inFlight = s.inFlight-1 := by
  cases success <;> rfl

end Spec

end HostState

/-- A host that has no entry is one that has never been seen. -/
structure Hosts where
  known : Finset String
  state : String → HostState
  absent : ∀ h, h ∉ known → state h = {}

namespace Hosts

def new : Hosts := ⟨∅,fun _ => {},fun _ _ => rfl⟩

def put (hosts : Hosts) (host : String) (s : HostState) : Hosts where
  known := insert host hosts.known
  state := Function.update hosts.state host s
  absent h hh := by
    obtain ⟨hne,hk⟩ := not_or.1 (mt Finset.mem_insert.2 hh)
    rw [Function.update_of_ne hne]
    exact hosts.absent h hk

def retain (hosts : Hosts) : Hosts where
  known := hosts.known.filter fun h => (hosts.state h).kept
  state h := if (hosts.state h).kept then hosts.state h else {}
  absent h hh := by
    by_cases hk : (hosts.state h).kept
    · rw [if_pos hk]
      exact hosts.absent h fun hmem => hh (Finset.mem_filter.2 ⟨hmem,hk⟩)
    · rw [if_neg hk]

def tryAcquire (max : Nat) (hosts : Hosts) (host : String) (now again : Nat) :
    Except Nat Unit × Hosts :=
  let (answer,s) := (hosts.state host).tryAcquire max now again
  (answer,hosts.put host s)

/-- The entry of a delivery that has completed. -/
def completed (hosts : Hosts) (host : String) (now : Nat) (success : Bool) : Hosts :=
  hosts.put host ((hosts.state host).release now success)

def release (hosts : Hosts) (host : String) (now : Nat) (success : Bool) : Hosts :=
  if host ∈ hosts.known then
    let hosts := hosts.completed host now success
    if hosts.known.card > 10000 then hosts.retain else hosts
  else hosts

end Hosts

inductive HostCall
  | tryAcquire (now again : Nat)
  | release (now : Nat) (success : Bool)
deriving DecidableEq, Repr

structure HostEvent where
  host : String
  call : HostCall
deriving DecidableEq, Repr

/-- A breaker that has opened: when the interval ends, and what was admitted since. -/
structure Probe where
  til : Nat
  admitted : Nat
deriving DecidableEq, Repr

/-- One host: its entry, the deliveries that were admitted and have not completed, and its probe
until one completes after the interval. -/
structure Lane where
  state : HostState := {}
  outstanding : Nat := 0
  probe : Option Probe := none
deriving DecidableEq, Repr

def Lane.accept (l : Lane) (s : HostState) : Except Nat Unit → Lane
  | .ok _ => ⟨s,l.outstanding+1,l.probe.map fun p => { p with admitted := p.admitted+1 }⟩
  | .error _ => { l with state := s }

/-- The probe after a completion. -/
def Lane.probed (l : Lane) (now : Nat) (success : Bool) : Option Probe :=
  match if success then none else l.state.opens with
  | some d => some ⟨now+d,0⟩
  | none => l.probe.filter fun p => now < p.til

def Lane.step (max : Nat) (l : Lane) : HostCall → Lane
  | .tryAcquire now again =>
    l.accept (l.state.tryAcquire max now again).2 (l.state.tryAcquire max now again).1
  | .release now success => ⟨l.state.release now success,l.outstanding-1,l.probed now success⟩

/-- All hosts, and what has become of their deliveries. -/
structure Traffic where
  clock : Nat
  hosts : Hosts
  outstanding : String → Nat
  probe : String → Option Probe

namespace Traffic

def start : Traffic := ⟨0,.new,fun _ => 0,fun _ => none⟩

def lane (t : Traffic) (h : String) : Lane := ⟨t.hosts.state h,t.outstanding h,t.probe h⟩

def step (max : Nat) (t : Traffic) (e : HostEvent) : Traffic :=
  match e.call with
  | .tryAcquire now again =>
    let (answer,hosts) := t.hosts.tryAcquire max e.host now again
    let l := (t.lane e.host).accept (hosts.state e.host) answer
    ⟨again,hosts,Function.update t.outstanding e.host l.outstanding,
      Function.update t.probe e.host l.probe⟩
  | .release now success =>
    ⟨now,t.hosts.release e.host now success,
      Function.update t.outstanding e.host (t.outstanding e.host-1),
      Function.update t.probe e.host ((t.lane e.host).probed now success)⟩

/-- Time passes, and only what was admitted is released. -/
def Allowed (t : Traffic) (e : HostEvent) : Prop :=
  match e.call with
  | .tryAcquire now again => t.clock ≤ now ∧ now ≤ again
  | .release now _ => t.clock ≤ now ∧ 0 < t.outstanding e.host

instance (t : Traffic) : (e : HostEvent) → Decidable (t.Allowed e)
  | ⟨_,.tryAcquire now again⟩ => inferInstanceAs (Decidable (t.clock ≤ now ∧ now ≤ again))
  | ⟨h,.release now _⟩ => inferInstanceAs (Decidable (t.clock ≤ now ∧ 0 < t.outstanding h))

def machine (max : Nat) : Machine Traffic HostEvent := ⟨Allowed,step max⟩

instance (max : Nat) (t : Traffic) (e : HostEvent) : Decidable ((machine max).allowed t e) :=
  inferInstanceAs (Decidable (t.Allowed e))

/-- Pruning drops no host that has failed since its last success. -/
def Remembers (t : Traffic) (e : HostEvent) : Prop :=
  match e.call with
  | .tryAcquire _ _ => True
  | .release now success =>
    (t.hosts.completed e.host now success).known.card > 10000 →
      ∀ h ∈ (t.hosts.completed e.host now success).known,
        ((t.hosts.completed e.host now success).state h).kept = false →
          ((t.hosts.completed e.host now success).state h).consecutiveFailures = 0

instance (t : Traffic) : (e : HostEvent) → Decidable (t.Remembers e)
  | ⟨_,.tryAcquire _ _⟩ => inferInstanceAs (Decidable True)
  | ⟨host,.release now success⟩ =>
    inferInstanceAs (Decidable ((t.hosts.completed host now success).known.card > 10000 →
      ∀ h ∈ (t.hosts.completed host now success).known,
        ((t.hosts.completed host now success).state h).kept = false →
          ((t.hosts.completed host now success).state h).consecutiveFailures = 0))

/-- From when a breaker is half-open until a delivery completes, no other finds room. -/
def Probing (max : Nat) (t : Traffic) (e : HostEvent) : Prop :=
  match e.call with
  | .tryAcquire _ _ =>
    (t.probe e.host).isSome → (t.hosts.state e.host).openUntil = none →
      max ≤ (t.hosts.state e.host).inFlight
  | .release _ _ => True

instance (max : Nat) (t : Traffic) : (e : HostEvent) → Decidable (t.Probing max e)
  | ⟨host,.tryAcquire _ _⟩ =>
    inferInstanceAs (Decidable ((t.probe host).isSome → (t.hosts.state host).openUntil = none →
      max ≤ (t.hosts.state host).inFlight))
  | ⟨_,.release _ _⟩ => inferInstanceAs (Decidable True)

/-- The steps at which neither pruning nor the half-open breaker goes wrong. -/
def Careful (max : Nat) (t : Traffic) (e : HostEvent) : Prop := t.Remembers e ∧ t.Probing max e

instance (max : Nat) (t : Traffic) (e : HostEvent) : Decidable (t.Careful max e) :=
  inferInstanceAs (Decidable (t.Remembers e ∧ t.Probing max e))

/-- What the calls of one host make of it on its own. -/
def alone (max : Nat) (es : List HostEvent) (h : String) : Lane :=
  ((es.filter fun e => e.host = h).map HostEvent.call).foldl (Lane.step max) {}

/-- Deliveries are counted and capped, hosts are apart, and a breaker lets one delivery probe. -/
structure Promise (max : Nat) (es : List HostEvent) (t : Traffic) : Prop where
  counted : ∀ h, (t.hosts.state h).inFlight = t.outstanding h
  capped : ∀ h, t.outstanding h ≤ max
  apart : ∀ h, t.lane h = alone max es h
  probes : ∀ h, ∀ p ∈ t.probe h, p.admitted ≤ 1

end Traffic

/-- A lane at some time: a probe is still to come, or it is out, or there was no room for it. -/
structure Lane.Sound (max clock : Nat) (l : Lane) : Prop where
  counted : l.state.inFlight = l.outstanding
  capped : l.outstanding ≤ max
  probe : ∀ p ∈ l.probe, l.state.openUntil = some p.til ∧ p.admitted = 0 ∨
    l.state.openUntil = none ∧ p.til ≤ clock ∧
      (p.admitted = 1 ∧ 0 < l.outstanding ∨ p.admitted = 0 ∧ max ≤ l.outstanding)

section Lane

variable {max clock now again : Nat} {l : Lane} {success : Bool}

theorem Lane.Sound.later (h : l.Sound max clock) (hle : clock ≤ now) : l.Sound max now where
  counted := h.counted
  capped := h.capped
  probe p hp := by
    obtain hopen | ⟨hnone,htil,hout⟩ := h.probe p hp
    · exact .inl hopen
    · exact .inr ⟨hnone,htil.trans hle,hout⟩

theorem Lane.Sound.admitted_le (h : l.Sound max clock) {p : Probe} (hp : p ∈ l.probe) :
    p.admitted ≤ 1 := by
  obtain ⟨-,hzero⟩ | ⟨-,-,⟨hone,-⟩ | ⟨hzero,-⟩⟩ := h.probe p hp <;> omega

/-- Where the breaker is closed, and a probe that is not yet out finds it half-open. -/
theorem Lane.Sound.reserve {s : HostState} (hin : s.inFlight = l.outstanding)
    (hcap : l.outstanding ≤ max) (hopen : s.openUntil = none)
    (hprobe : ∀ p ∈ l.probe, p.til ≤ clock ∧ p.admitted = 0) :
    (l.accept (s.reserve max).2 (s.reserve max).1).Sound max clock := by
  rw [HostState.reserve]
  by_cases hfull : s.inFlight ≥ max
  · rw [if_pos hfull]
    refine ⟨hin,hcap,fun p hp => .inr ⟨hopen,(hprobe p hp).1,.inr ⟨(hprobe p hp).2,?_⟩⟩⟩
    show max ≤ l.outstanding
    omega
  · rw [if_neg hfull]
    refine ⟨congrArg (·+1) hin,?_,fun p hp => .inr ⟨hopen,?_⟩⟩
    · show l.outstanding+1 ≤ max
      omega
    · obtain ⟨q,hq,rfl⟩ := Option.map_eq_some_iff.1 hp
      obtain ⟨htil,hzero⟩ := hprobe q hq
      exact ⟨htil,.inl ⟨congrArg (·+1) hzero,Nat.succ_pos l.outstanding⟩⟩

/-- Where a probe is out, a delivery has to find no room. -/
theorem Lane.Sound.tryAcquire (h : l.Sound max clock) (hnow : clock ≤ now)
    (hroom : l.probe.isSome → l.state.openUntil = none → max ≤ l.state.inFlight) :
    (l.step max (.tryAcquire now again)).Sound max now := by
  rw [Lane.step]
  cases hopen : l.state.openUntil with
  | none =>
    rw [HostState.tryAcquire_closed hopen]
    cases hprobe : l.probe with
    | none =>
      refine .reserve h.counted h.capped hopen fun p hp => ?_
      rw [hprobe] at hp
      exact absurd hp (by simp)
    | some p =>
      have hfull : l.state.inFlight ≥ max := hroom (by rw [hprobe]; rfl) hopen
      rw [HostState.reserve,if_pos hfull]
      exact h.later hnow
  | some til =>
    by_cases hlt : now < til
    · rw [HostState.tryAcquire_open hopen hlt]
      exact h.later hnow
    · rw [HostState.tryAcquire_expired hopen (not_lt.1 hlt)]
      refine .reserve h.counted h.capped rfl fun p hp => ?_
      obtain ⟨hsome,hzero⟩ | ⟨hnone,-⟩ := h.probe p hp
      · -- the interval that has run out is the probe's
        obtain rfl : til = p.til := Option.some.inj (hopen.symm.trans hsome)
        exact ⟨not_lt.1 hlt,hzero⟩
      · rw [hopen] at hnone
        exact absurd hnone (by simp)

theorem Lane.Sound.release (h : l.Sound max clock) (hnow : clock ≤ now) :
    (l.step max (.release now success)).Sound max now := by
  have hcap := h.capped
  refine ⟨?_,?_,fun p hp => ?_⟩
  · show (l.state.release now success).inFlight = l.outstanding-1
    rw [HostState.release_inFlight,h.counted]
  · show l.outstanding-1 ≤ max
    omega
  · replace hp : p ∈ l.probed now success := hp
    show (l.state.release now success).openUntil = some p.til ∧ _ ∨ _
    rw [Lane.probed] at hp
    cases hopens : (if success then none else l.state.opens) with
    | some d =>
      -- the breaker opens, again or for the first time
      obtain ⟨rfl,hd⟩ : success = false ∧ l.state.opens = some d := by
        cases success with
        | false => exact ⟨rfl,hopens⟩
        | true => exact absurd hopens (by simp)
      simp only [hopens] at hp
      obtain rfl := Option.some.inj hp
      exact .inl ⟨HostState.openUntil_of_opens hd,rfl⟩
    | none =>
      have hclosed : success = true ∨ l.state.opens = none := by
        cases success with
        | false => exact .inr hopens
        | true => exact .inl rfl
      simp only [hopens] at hp
      obtain ⟨hp,hlt⟩ := Option.mem_filter_iff.1 hp
      have hlt' : now < p.til := of_decide_eq_true hlt
      obtain hopen | ⟨-,htil,-⟩ := h.probe p hp
      · rw [HostState.openUntil_of_not_opens hclosed]
        exact .inl hopen
      · omega

/-- A delivery that finds room while a probe is out is a second one. -/
theorem Lane.Sound.second (h : l.Sound max clock) {p : Probe} (hp : p ∈ l.probe)
    (hopen : l.state.openUntil = none) (hroom : l.state.inFlight < max) (now again : Nat) :
    ∃ q ∈ (l.step max (.tryAcquire now again)).probe, q.admitted = 2 := by
  have hin := h.counted
  obtain ⟨hsome,-⟩ | ⟨-,-,⟨hone,-⟩ | ⟨-,hfull⟩⟩ := h.probe p hp
  · rw [hopen] at hsome
    exact absurd hsome (by simp)
  · rw [Lane.step,HostState.tryAcquire_closed hopen,HostState.reserve,if_neg (by omega)]
    exact ⟨{ p with admitted := p.admitted+1 },Option.mem_map_of_mem _ hp,congrArg (·+1) hone⟩
  · omega

end Lane

namespace Traffic

variable {max : Nat} {t : Traffic} {e : HostEvent}

def Sound (max : Nat) (t : Traffic) : Prop := ∀ h, (t.lane h).Sound max t.clock

theorem Sound.known (ht : t.Sound max) {h : String} (hout : 0 < t.outstanding h) :
    h ∈ t.hosts.known := by
  by_contra hno
  have hin := (ht h).counted
  rw [lane,t.hosts.absent h hno] at hin
  exact absurd hin.symm hout.ne'

/-- Forgetting a host that has nothing to remember changes nothing. -/
theorem retain_state {hosts : Hosts} (h : ∀ k ∈ hosts.known, (hosts.state k).kept = false →
    (hosts.state k).consecutiveFailures = 0) (k : String) :
    hosts.retain.state k = hosts.state k := by
  show (if (hosts.state k).kept then hosts.state k else {}) = _
  by_cases hmem : k ∈ hosts.known
  · by_cases hk : (hosts.state k).kept
    · rw [if_pos hk]
    · rw [if_neg hk]
      have hzero := h k hmem (by simpa using hk)
      rw [HostState.kept] at hk
      obtain ⟨hin,hopen⟩ : (hosts.state k).inFlight = 0 ∧ (hosts.state k).openUntil = none := by
        simpa using hk
      cases hs : hosts.state k with
      | mk inFlight failures openUntil =>
        rw [hs] at hin hzero hopen
        simp only at hin hzero hopen
        rw [hin,hzero,hopen]
  · rw [hosts.absent k hmem,ite_self]

/-- Every entry is what the completion leaves, exactly where pruning forgets no failure. -/
theorem release_state_iff (ht : t.Sound max) {h : String} {now : Nat} {success : Bool}
    (hout : 0 < t.outstanding h) :
    (∀ k, (t.hosts.release h now success).state k = (t.hosts.completed h now success).state k) ↔
      t.Remembers ⟨h,.release now success⟩ := by
  rw [Hosts.release,if_pos (ht.known hout)]
  dsimp only
  by_cases hmany : (t.hosts.completed h now success).known.card > 10000
  · rw [if_pos hmany]
    refine ⟨fun hsame _ k _ hk => ?_,fun hr k => retain_state (hr hmany) k⟩
    have hforgot : (t.hosts.completed h now success).retain.state k = {} :=
      if_neg (by rw [hk]; exact Bool.false_ne_true)
    rw [← hsame k,hforgot]
  · rw [if_neg hmany]
    exact ⟨fun _ h => absurd h hmany,fun _ _ => rfl⟩

/-- What a call makes of a host, whatever the others do. -/
def next (max : Nat) (t : Traffic) (e : HostEvent) (h : String) : Lane :=
  if e.host = h then (t.lane h).step max e.call else t.lane h

/-- A call is about its own host, exactly where pruning forgets no failure. -/
theorem lane_step_iff (ht : t.Sound max) (he : t.Allowed e) :
    (∀ h, (t.step max e).lane h = t.next max e h) ↔ t.Remembers e := by
  obtain ⟨host,call⟩ := e
  cases call with
  | tryAcquire now again =>
    refine ⟨fun _ => trivial,fun _ h => ?_⟩
    by_cases hh : host = h
    · subst hh
      rw [next,if_pos rfl]
      simp only [step,lane,Hosts.tryAcquire,Hosts.put,Lane.step,Function.update_self]
      cases ((t.hosts.state host).tryAcquire max now again).1 <;> rfl
    · rw [next,if_neg hh]
      simp only [step,lane,Hosts.tryAcquire,Hosts.put,Function.update_of_ne (Ne.symm hh)]
  | release now success =>
    rw [← release_state_iff ht he.2]
    refine forall_congr' fun h => ?_
    by_cases hh : host = h
    · subst hh
      rw [next,if_pos rfl]
      simp only [step,lane,Lane.step,Hosts.completed,Hosts.put,Function.update_self,Lane.mk.injEq,
        and_true]
    · rw [next,if_neg hh]
      simp only [step,lane,Hosts.completed,Hosts.put,Function.update_of_ne (Ne.symm hh),
        Lane.mk.injEq,and_true]

theorem Sound.start (max : Nat) : start.Sound max := fun _ =>
  ⟨rfl,Nat.zero_le max,fun _ hp => absurd hp (by simp [lane,Traffic.start])⟩

theorem Sound.step (ht : t.Sound max) (he : t.Allowed e) (hc : t.Careful max e) :
    (t.step max e).Sound max := by
  intro h
  rw [(lane_step_iff ht he).2 hc.1 h,next]
  obtain ⟨host,call⟩ := e
  cases call with
  | tryAcquire now again =>
    show Lane.Sound max again _
    by_cases hh : host = h
    · subst hh
      rw [if_pos rfl]
      exact ((ht host).tryAcquire he.1 hc.2).later he.2
    · rw [if_neg hh]
      exact (ht h).later (he.1.trans he.2)
  | release now success =>
    show Lane.Sound max now _
    by_cases hh : host = h
    · rw [if_pos hh]
      exact (ht h).release he.1
    · rw [if_neg hh]
      exact (ht h).later he.1

theorem alone_append (es : List HostEvent) (h : String) :
    alone max (es++[e]) h =
      if e.host = h then (alone max es h).step max e.call else alone max es h := by
  rw [alone,List.filter_append,List.map_append,List.foldl_append]
  by_cases hh : e.host = h
  · rw [if_pos hh,List.filter_cons_of_pos (by simpa using hh)]
    rfl
  · rw [if_neg hh,List.filter_cons_of_neg (by simpa using hh)]
    rfl

/-- Where every host is so far what its own calls make of it, the promise is kept exactly by a
careful step. -/
theorem promise_step_iff {es : List HostEvent} (ht : t.Sound max)
    (halone : ∀ h, t.lane h = alone max es h) (he : t.Allowed e) :
    Promise max (es++[e]) (t.step max e) ↔ t.Careful max e := by
  have hnext : ∀ h, alone max (es++[e]) h = t.next max e h := fun h => by
    rw [alone_append,next,halone h]
  constructor
  · intro hp
    have hr : t.Remembers e :=
      (lane_step_iff ht he).1 fun h => (hp.apart h).trans (hnext h)
    refine ⟨hr,?_⟩
    obtain ⟨host,call⟩ := e
    cases call with
    | release now success => trivial
    | tryAcquire now again =>
      intro hsome hopen
      by_contra hroom
      obtain ⟨p,hprobe⟩ := Option.isSome_iff_exists.1 hsome
      obtain ⟨q,hq,htwo⟩ := (ht host).second hprobe hopen (not_le.1 hroom) now again
      have hlane := (lane_step_iff ht he).2 hr host
      rw [next,if_pos rfl] at hlane
      have hle := hp.probes host q (by rw [← hlane] at hq; exact hq)
      omega
  · intro hc
    have hsound := ht.step he hc
    refine ⟨fun h => (hsound h).counted,fun h => (hsound h).capped,fun h => ?_,
      fun h p hp => (hsound h).admitted_le hp⟩
    rw [hnext]
    exact (lane_step_iff ht he).2 hc.1 h

/-- Over a whole run of careful steps, every host is what its own calls make of it. -/
theorem sound_of_runs {es : List HostEvent}
    (hrun : ((machine max).restrict (Careful max)).Runs start es) :
    (es.foldl (Traffic.step max) start).Sound max ∧
      ∀ h, (es.foldl (Traffic.step max) start).lane h = alone max es h := by
  induction es using List.reverseRecOn with
  | nil => exact ⟨.start max,fun _ => rfl⟩
  | append_singleton es e ih =>
    obtain ⟨hpast,he,hc⟩ := Machine.runs_concat.1 hrun
    obtain ⟨hsound,halone⟩ := ih hpast
    rw [List.foldl_concat]
    exact ⟨hsound.step he hc,((promise_step_iff hsound halone he).2 hc).apart⟩

theorem Sound.probing (ht : t.Sound max) (hmax : max ≤ 1) (e : HostEvent) : t.Probing max e := by
  obtain ⟨host,call⟩ := e
  cases call with
  | release now success => trivial
  | tryAcquire now again =>
    intro hsome hopen
    have hin : (t.hosts.state host).inFlight = t.outstanding host := (ht host).counted
    obtain ⟨p,hprobe⟩ := Option.isSome_iff_exists.1 hsome
    obtain ⟨hopen',-⟩ | ⟨-,-,⟨-,hout⟩ | ⟨-,hfull⟩⟩ := (ht host).probe p hprobe
    · exact absurd (hopen.symm.trans hopen') (by simp)
    · exact hmax.trans (hin ▸ hout)
    · exact hin ▸ hfull

/-- With one delivery at a time to a host, only pruning can go wrong. -/
theorem careful_of_one {es : List HostEvent} (hmax : max ≤ 1)
    (hrun : ((machine max).restrict Remembers).Runs start es) :
    ((machine max).restrict (Careful max)).Runs start es := by
  induction es using List.reverseRecOn with
  | nil => trivial
  | append_singleton es e ih =>
    obtain ⟨hpast,he,hr⟩ := Machine.runs_concat.1 hrun
    have hcareful := ih hpast
    exact Machine.runs_concat.2 ⟨hcareful,he,hr,(sound_of_runs hcareful).1.probing hmax e⟩

/-- A run keeps the promise throughout exactly when all its steps are careful. -/
theorem promise_iff_careful {es : List HostEvent} (hrun : (machine max).Runs start es) :
    (∀ n, Promise max (es.take n) ((es.take n).foldl (step max) start)) ↔
      ((machine max).restrict (Careful max)).Runs start es := by
  refine Machine.Runs.forall_take_past_iff (P := fun past => Promise max past _) ?_ ?_ hrun
  · exact ⟨fun _ => rfl,fun _ => Nat.zero_le max,fun _ => rfl,
      fun _ p hp => absurd hp (by simp [start])⟩
  · intro past e hpast he
    obtain ⟨hsound,halone⟩ := sound_of_runs hpast
    rw [List.foldl_concat]
    exact promise_step_iff hsound halone he

/-- Five failures open the breaker for five seconds. -/
def opened (host : String) : List HostEvent :=
  (List.replicate 5 [⟨host,.tryAcquire 0 0⟩,⟨host,.release 0 false⟩]).flatten

/-- A probe that succeeds, and a delivery after it. -/
def recovered (host : String) : List HostEvent :=
  opened host ++ [⟨host,.tryAcquire 5000000000 5000000000⟩,⟨host,.release 6000000000 true⟩,
    ⟨host,.tryAcquire 6000000000 6000000000⟩]

theorem promise_kept_recovered : (machine 16).Runs start (recovered "h:80") ∧
    ∀ n, Promise 16 ((recovered "h:80").take n)
      (((recovered "h:80").take n).foldl (step 16) start) :=
  ⟨by decide +kernel,(promise_iff_careful (by decide +kernel)).2 (by decide +kernel)⟩

/-- Two deliveries that come when the interval has run out. -/
def twoProbes (host : String) : List HostEvent :=
  opened host ++ List.replicate 2 ⟨host,.tryAcquire 5000000000 5000000000⟩

/-- The half-open breaker lets as many through as the host may have. -/
theorem twoProbes_breaks_promise : (machine 16).Runs start (twoProbes "h:80") ∧
    ((twoProbes "h:80").foldl (step 16) start).probe "h:80" = some ⟨5000000000,2⟩ ∧
    ¬∀ n, Promise 16 ((twoProbes "h:80").take n)
      (((twoProbes "h:80").take n).foldl (step 16) start) := by
  have hprobe : ((twoProbes "h:80").foldl (step 16) start).probe "h:80" = some ⟨5000000000,2⟩ := by
    decide +kernel
  refine ⟨by decide +kernel,hprobe,fun hall => ?_⟩
  have hle := (hall (twoProbes "h:80").length).probes "h:80" ⟨5000000000,2⟩
  rw [List.take_length] at hle
  exact absurd (hle hprobe) (by decide)

end Traffic

end GumEngine
