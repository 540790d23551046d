import GumEngine.Domain
import GumEngine.Transition.Machine

/-!
# The rate limiter

`Limiter` and `Dispatcher::run` of `rpc/limiter.rs`: callers join one of three lanes and wait, a
dispatcher hands out tokens. Callers may give up at any time, also between the moment their turn
comes and the grant. What is proved holds for any arithmetic in the place of `f64`. Beside the
state stand the callers of each lane in the order they came, those whose turn has come, and the
grants.
-/

namespace GumEngine.Rpc
open Transition

/-- What the dispatcher computes with. -/
class TokenArith (K : Type) extends OfScientific K, NatCast K, Add K, Sub K, Mul K, Div K, Min K,
    Max K, LE K where
  decidableLE : DecidableLE K

attribute [reducible, instance] TokenArith.decidableLE

/-- `f64` -/
instance : TokenArith Float := { natCast := Float.ofNat, decidableLE := inferInstance }

/-- Exact arithmetic. -/
instance : TokenArith ℚ := { decidableLE := inferInstance }

inductive Lane
  /-- Broadcasts and rebroadcasts. -/
  | send
  /-- Estimates, receipts, confirmation checks, recovery reads. -/
  | read
  /-- Health probes and balance sweeps. -/
  | background
deriving DecidableEq, Repr

namespace Lane

/-- The lanes before this one, which are served first. -/
def before : Lane → List Lane
  | send => []
  | read => [send]
  | background => [send,read]

/-- The lane that is looked at next. -/
def next : Lane → Option Lane
  | send => some read
  | read => some background
  | background => none

end Lane

inductive WaiterState
  | waiting | granted | gaveUp
deriving DecidableEq, Repr

/-- Where the dispatcher is. `closed` counts the lanes whose channel it found closed. -/
inductive DispatcherAt
  | pulling (lane : Lane) (closed : Nat)
  | counting
  | granting
  | sleeping
  | parked
  /-- It was parked and found a channel closed. -/
  | lingering
  | stopped
deriving DecidableEq, Repr

def DispatcherAt.isPulling : DispatcherAt → Bool
  | pulling _ _ => true
  | _ => false

/-- A grant, and what it was decided on: the tokens, the shares and the lanes with callers. -/
structure Grant (K : Type) where
  lane : Lane
  waiter : Nat
  tokens : K
  credit : Lane → K
  waiting : Lane → Bool

structure LimiterConfig where
  ratePerSec : Nat
  reservedRead : Nat
  reservedBackground : Nat
deriving DecidableEq, Repr

structure Limiter (K : Type) where
  isOpen : Bool
  rx : Lane → List Nat
  queues : Lane → List Nat
  penalties : Nat
  seenPenalties : Nat
  factor : K
  tokens : K
  credit : Lane → K
  granted : Lane → Nat
  phase : DispatcherAt
  waiters : Nat → WaiterState
  asked : Nat
  came : Lane → List Nat
  turned : Lane → List Nat
  grants : List (Grant K)

inductive LimiterEvent (K : Type)
  | acquire (lane : Lane)
  | giveUp (waiter : Nat)
  | penalize
  /-- The last handle is dropped. -/
  | close
  | pull
  | count (elapsed : K)
  | grant
  | wake
  /-- The parked dispatcher hears from a lane: a caller, or that the channel is closed. -/
  | receive (lane : Lane)

namespace Limiter

variable {K : Type}

def hasWaiting (s : Limiter K) (l : Lane) : Bool := !(s.queues l).isEmpty

def isIdle (s : Limiter K) : Bool :=
  !s.hasWaiting .send && !s.hasWaiting .read && !s.hasWaiting .background

/-- The first lane with a caller. -/
def firstWaiting (s : Limiter K) : Option Lane :=
  if s.hasWaiting .send then some .send
  else if s.hasWaiting .read then some .read
  else if s.hasWaiting .background then some .background
  else none

section Steps

variable (s : Limiter K)

def acquire (l : Lane) : Limiter K :=
  { s with
    rx := Function.update s.rx l (s.rx l++[s.asked])
    waiters := Function.update s.waiters s.asked .waiting
    came := Function.update s.came l (s.came l++[s.asked])
    asked := s.asked+1 }

def giveUp (w : Nat) : Limiter K :=
  { s with waiters := Function.update s.waiters w .gaveUp }

/-- Pulls everything that is waiting in a lane into its queue. -/
def pull (l : Lane) (closed : Nat) : Limiter K :=
  let closed := if s.isOpen then closed else closed+1
  let s' := { s with
    rx := Function.update s.rx l []
    queues := Function.update s.queues l (s.queues l++s.rx l) }
  match l.next with
  | some l' => { s' with phase := .pulling l' closed }
  | none => { s' with phase := if closed = 3 && s'.isIdle then .stopped else .counting }

def receive (l : Lane) : Limiter K :=
  match s.rx l with
  | w :: rest =>
    { s with
      rx := Function.update s.rx l rest
      queues := Function.update s.queues l (s.queues l++[w])
      phase := .pulling .send 0 }
  -- one lane closed; if all are closed the top of the loop returns
  | [] => { s with phase := .lingering }

end Steps

section Arithmetic

variable [TokenArith K] (c : LimiterConfig) (s : Limiter K)

def LimiterConfig.rate (c : LimiterConfig) : K := (max c.ratePerSec 1 : Nat)

/-- About 200 ms of burst, so that an idle system adds no latency to the first requests. -/
def burst : K := max (LimiterConfig.rate c/5.0) 1.0

def reserved : Lane → K
  | .send => 0.0
  | .read => (c.reservedRead : K)
  | .background => (c.reservedBackground : K)

/-- The refill: a penalty halves the rate, which recovers on its own. -/
def count (elapsed : K) : Limiter K :=
  let s' :=
    if s.penalties = s.seenPenalties then { s with factor := min (s.factor+0.05*elapsed) 1.0 }
    else { s with
      seenPenalties := s.penalties
      factor := max (s.factor*0.5) 0.25
      tokens := min s.tokens 1.0 }
  { s' with
    tokens := min (s'.tokens+elapsed*(LimiterConfig.rate c*s'.factor)) (burst c)
    credit := fun l =>
      if l = .send then s'.credit l
      else min (s'.credit l+elapsed*reserved c l*s'.factor) (max (reserved c l) 1.0)
    phase := .granting }

/-- The lane whose turn it is: a lower one that has a share left, else the first. -/
def choose : Option Lane :=
  if s.hasWaiting .read && 1.0 ≤ s.credit .read then some .read
  else if s.hasWaiting .background && 1.0 ≤ s.credit .background then some .background
  else s.firstWaiting

/-- A dropped receiver means the caller gave up; its token is not spent. -/
def spend (l : Lane) (w : Nat) : Limiter K :=
  if s.waiters w = .waiting then
    { s with
      waiters := Function.update s.waiters w .granted
      tokens := s.tokens-1.0
      credit := if l = .send then s.credit
        else Function.update s.credit l (max (s.credit l-1.0) 0.0)
      granted := if s.isOpen then Function.update s.granted l (s.granted l+1) else s.granted
      grants := ⟨l,w,s.tokens,s.credit,s.hasWaiting⟩ :: s.grants }
  else s

/-- The first caller of a lane leaves it. -/
def turn (l : Lane) (w : Nat) (rest : List Nat) : Limiter K :=
  { s.spend l w with
    queues := Function.update s.queues l rest
    turned := Function.update s.turned l (s.turned l++[w]) }

def finish : Limiter K := { s with phase := if s.isIdle then .parked else .sleeping }

/-- One turn of the loop that grants as many as the bucket allows. -/
def grant : Limiter K :=
  if (1.0 : K) ≤ s.tokens then
    match s.choose with
    | none => s.finish
    | some l =>
      match s.queues l with
      | [] => s.finish
      | w :: rest => s.turn l w rest
  else s.finish

def step : LimiterEvent K → Limiter K
  | .acquire l => s.acquire l
  | .giveUp w => s.giveUp w
  | .penalize => { s with penalties := s.penalties+1 }
  | .close => { s with isOpen := false }
  | .pull =>
    match s.phase with
    | .pulling l closed => s.pull l closed
    | _ => s
  | .count elapsed => s.count c elapsed
  | .grant => s.grant
  | .wake => { s with phase := .pulling .send 0 }
  | .receive l => s.receive l

def start : Limiter K where
  isOpen := true
  rx _ := []
  queues _ := []
  penalties := 0
  seenPenalties := 0
  factor := 1.0
  tokens := burst c
  credit _ := 0.0
  granted _ := 0
  phase := .pulling .send 0
  waiters _ := .waiting
  asked := 0
  came _ := []
  turned _ := []
  grants := []

def Allowed : LimiterEvent K → Prop
  | .acquire _ | .penalize => s.isOpen = true
  -- a caller that waits holds a handle
  | .close => s.isOpen = true ∧ ∀ w < s.asked, s.waiters w ≠ .waiting
  | .giveUp w => w < s.asked ∧ s.waiters w = .waiting
  | .pull => s.phase.isPulling = true
  | .count _ => s.phase = .counting
  | .grant => s.phase = .granting
  | .wake => s.phase = .sleeping ∨ s.phase = .lingering
  | .receive l => s.phase = .parked ∧ (s.rx l ≠ [] ∨ s.isOpen = false)

instance : ∀ e, Decidable (s.Allowed e)
  | .acquire _ | .penalize | .pull => inferInstanceAs (Decidable (_ = true))
  | .close | .giveUp _ | .receive _ => inferInstanceAs (Decidable (_ ∧ _))
  | .count _ | .grant => inferInstanceAs (Decidable (_ = _))
  | .wake => inferInstanceAs (Decidable (_ ∨ _))

def machine : Machine (Limiter K) (LimiterEvent K) := ⟨Allowed,step c⟩

instance (e : LimiterEvent K) : Decidable ((machine c).allowed s e) :=
  inferInstanceAs (Decidable (s.Allowed e))

end Arithmetic

end Limiter

section Fair

variable {K : Type} [TokenArith K]

/-- A lower lane that has a share left. -/
def Grant.HasShare (g : Grant K) (l : Lane) : Prop := l ≠ .send ∧ (1.0 : K) ≤ g.credit l

/-- There was a token, and no lane with a caller had a better right to it: one with a share goes
before one without, and of two equal ones the first goes. -/
structure Grant.Fair (g : Grant K) : Prop where
  token : (1.0 : K) ≤ g.tokens
  share : ∀ l, g.waiting l = true → g.HasShare l → g.HasShare g.lane
  first : ∀ l, g.waiting l = true → (g.HasShare g.lane → g.HasShare l) → l ∉ g.lane.before

/-- What holds of the limiter and of everyone who ever asked it. -/
structure Limiter.Orderly (s : Limiter K) : Prop where
  /-- Each lane is served in the order in which its callers came, and none is lost. -/
  order : ∀ l, s.came l = s.turned l++s.queues l++s.rx l
  once : (s.came .send++s.came .read++s.came .background).Perm (List.range s.asked)
  /-- A caller whose turn has come does not wait any more, and no other has a grant. -/
  settled : ∀ l, ∀ w ∈ s.turned l, s.waiters w ≠ .waiting
  pending : ∀ l, ∀ w ∈ s.queues l++s.rx l, s.waiters w ≠ .granted
  /-- The grants are those of the callers that had not given up, in their order. -/
  logged : ∀ l, (s.grants.filter fun g => g.lane = l).map Grant.waiter =
    ((s.turned l).filter fun w => s.waiters w = .granted).reverse
  counted : ∀ l, s.granted l = s.grants.countP fun g => g.lane = l
  fair : ∀ g ∈ s.grants, g.Fair
  /-- It sleeps for lack of a token only, and parks with its queues empty. -/
  sleeping : s.phase = .sleeping → s.isIdle = false ∧ ¬(1.0 : K) ≤ s.tokens
  parked : s.phase = .parked → s.isIdle = true
  stopped : s.phase = .stopped → ∀ l, s.queues l = [] ∧ s.rx l = []

end Fair

namespace Limiter

variable {K : Type}

/-- All callers in the order of their lanes. -/
def everyone (s : Limiter K) : List Nat := s.came .send++s.came .read++s.came .background

theorem mem_everyone {s : Limiter K} {w : Nat} : w ∈ s.everyone ↔ ∃ l, w ∈ s.came l := by
  constructor
  · intro h
    simp only [everyone,List.mem_append] at h
    rcases h with (h | h) | h
    · exact ⟨_,h⟩
    · exact ⟨_,h⟩
    · exact ⟨_,h⟩
  · rintro ⟨l,h⟩
    simp only [everyone,List.mem_append]
    cases l with
    | send => exact Or.inl (Or.inl h)
    | read => exact Or.inl (Or.inr h)
    | background => exact Or.inr h

/-- A caller is in one lane. -/
theorem lane_unique {s : Limiter K} (h : s.everyone.Nodup) {l l' : Lane} {w : Nat}
    (hl : w ∈ s.came l) (hl' : w ∈ s.came l') : l = l' := by
  simp only [everyone,List.nodup_append',List.disjoint_append_left] at h
  obtain ⟨⟨-,-,hsr⟩,-,hsb,hrb⟩ := h
  cases l <;> cases l' <;> first
    | rfl
    | exact absurd hl' (hsr hl)
    | exact absurd hl (hsr hl')
    | exact absurd hl' (hsb hl)
    | exact absurd hl (hsb hl')
    | exact absurd hl' (hrb hl)
    | exact absurd hl (hrb hl')

theorem lane_nodup {s : Limiter K} (h : s.everyone.Nodup) (l : Lane) : (s.came l).Nodup := by
  simp only [everyone,List.nodup_append'] at h
  obtain ⟨⟨hs,hr,-⟩,hb,-⟩ := h
  cases l with
  | send => exact hs
  | read => exact hr
  | background => exact hb

section Kept

variable [TokenArith K] {s : Limiter K}

/-- `Orderly`, with what the dispatcher knows about closed channels. -/
structure Kept (s : Limiter K) : Prop extends Orderly s where
  shut : s.isOpen = false → ∀ w < s.asked, s.waiters w ≠ .waiting
  ended : s.phase = .stopped → s.isOpen = false
  closing : ∀ l k, s.phase = .pulling l k → k ≤ l.before.length ∧
    (k = l.before.length → ∀ l' ∈ l.before, s.isOpen = false ∧ s.rx l' = [])

theorem Orderly.known (h : Orderly s) {l : Lane} {w : Nat} (hw : w ∈ s.came l) : w < s.asked := by
  have hmem : w ∈ s.everyone := mem_everyone.mpr ⟨l,hw⟩
  exact List.mem_range.mp (h.once.mem_iff.mp hmem)

theorem Orderly.nodup (h : Orderly s) : s.everyone.Nodup := h.once.nodup_iff.mpr List.nodup_range

theorem Orderly.mem_came (h : Orderly s) {l : Lane} {w : Nat} :
    w ∈ s.came l ↔ w ∈ s.turned l ∨ w ∈ s.queues l ∨ w ∈ s.rx l := by
  rw [h.order l]
  simp only [List.mem_append,or_assoc]

/-- The grants of a lane are read off any states that agree on those whose turn has come. -/
theorem Orderly.granted_of (h : Orderly s) {f : Nat → WaiterState} {l : Lane}
    (hf : ∀ w ∈ s.turned l, f w = s.waiters w) :
    (s.grants.filter fun g => g.lane = l).map Grant.waiter =
      ((s.turned l).filter fun w => f w = .granted).reverse := by
  have hfilter : ((s.turned l).filter fun w => f w = .granted) =
      (s.turned l).filter fun w => s.waiters w = .granted := by
    refine List.filter_congr fun w hw => ?_
    rw [hf w hw]
  rw [hfilter]
  exact h.logged l

omit [TokenArith K] in
theorem everyone_acquire (s : Limiter K) (l : Lane) :
    ((s.acquire l).everyone).Perm (s.everyone++[s.asked]) := by
  cases l with
  | send =>
    simp only [everyone,Limiter.acquire,Function.update_self,ne_eq,reduceCtorEq,not_false_eq_true,
      Function.update_of_ne]
    simp only [List.append_assoc]
    exact List.Perm.append_left _ (List.perm_append_comm.trans (by simp))
  | read =>
    simp only [everyone,Limiter.acquire,Function.update_self,ne_eq,reduceCtorEq,not_false_eq_true,
      Function.update_of_ne]
    simp only [List.append_assoc]
    exact List.Perm.append_left _ (List.Perm.append_left _ List.perm_append_comm)
  | background =>
    simp only [everyone,Limiter.acquire,Function.update_self,ne_eq,reduceCtorEq,not_false_eq_true,
      Function.update_of_ne]
    simp only [List.append_assoc]
    exact List.Perm.refl _

/-- A new caller takes the next number and the last place in its lane. -/
theorem Kept.acquire (h : Kept s) (hopen : s.isOpen = true) (l : Lane) : Kept (s.acquire l) := by
  have hnew : ∀ l', s.asked ∉ s.came l' := fun l' hw => absurd (h.known hw) (lt_irrefl _)
  have hstate : ∀ {l' w}, w ∈ s.came l' → (s.acquire l).waiters w = s.waiters w := by
    intro l' w hw
    refine Function.update_of_ne (fun he => ?_) ..
    rw [he] at hw
    exact hnew l' hw
  refine ⟨⟨fun l' => ?_,?_,fun l' w hw => ?_,fun l' w hw => ?_,fun l' => ?_,h.counted,h.fair,h.sleeping,
    h.parked,fun hst => ?_⟩,fun hc => ?_,h.ended,fun l' k hp => ?_⟩
  · by_cases hl : l' = l
    · subst hl
      simp only [Limiter.acquire,Function.update_self]
      rw [h.order l',List.append_assoc]
    · simp only [Limiter.acquire,Function.update_of_ne hl]
      exact h.order l'
  · show ((s.acquire l).everyone).Perm (List.range (s.asked+1))
    rw [List.range_succ]
    exact (everyone_acquire s l).trans (h.once.append_right _)
  · rw [hstate (h.mem_came.mpr (Or.inl hw))]
    exact h.settled l' w hw
  · by_cases hw' : w = s.asked
    · subst hw'
      simp [Limiter.acquire]
    · have hold : w ∈ s.queues l'++s.rx l' := by
        by_cases hl : l' = l
        · subst hl
          simp only [Limiter.acquire,Function.update_self,← List.append_assoc] at hw
          exact (List.mem_append.mp hw).resolve_right (by simpa using hw')
        · simpa only [Limiter.acquire,Function.update_of_ne hl] using hw
      rw [hstate (h.mem_came.mpr (Or.inr (List.mem_append.mp hold)))]
      exact h.pending l' w hold
  · exact h.granted_of fun w hw => hstate (h.mem_came.mpr (Or.inl hw))
  · exact absurd (hopen.symm.trans (h.ended hst)) (by simp)
  · exact absurd (hopen.symm.trans hc) (by simp)
  · obtain ⟨hle,hall⟩ := h.closing l' k hp
    refine ⟨hle,fun hk l'' hl'' => ?_⟩
    exact absurd (hopen.symm.trans (hall hk l'' hl'').1) (by simp)

/-- Someone who still waits gives up. -/
theorem Kept.giveUp (h : Kept s) {w : Nat} (hw : s.waiters w = .waiting) : Kept (s.giveUp w) := by
  have hstate : ∀ {l x}, x ∈ s.turned l → (s.giveUp w).waiters x = s.waiters x := by
    intro l x hx
    refine Function.update_of_ne (fun he => ?_) ..
    rw [he] at hx
    exact h.settled l w hx hw
  have hcases : ∀ x, (s.giveUp w).waiters x = .gaveUp ∨ (s.giveUp w).waiters x = s.waiters x := by
    intro x
    by_cases hx : x = w
    · subst hx
      exact Or.inl (Function.update_self ..)
    · exact Or.inr (Function.update_of_ne hx ..)
  refine ⟨⟨h.order,h.once,fun l x hx => ?_,fun l x hx => ?_,fun l => ?_,h.counted,h.fair,h.sleeping,
    h.parked,h.stopped⟩,fun hc x hx => ?_,h.ended,h.closing⟩
  · rw [hstate hx]
    exact h.settled l x hx
  · rcases hcases x with he | he
    · simp [he]
    · rw [he]
      exact h.pending l x hx
  · exact h.granted_of fun x hx => hstate hx
  · rcases hcases x with he | he
    · simp [he]
    · rw [he]
      exact h.shut hc x hx

/-- A move of the dispatcher that leaves the callers and the grants alone. -/
structure SameCallers (s s' : Limiter K) : Prop where
  came : s'.came = s.came
  turned : s'.turned = s.turned
  waiters : s'.waiters = s.waiters
  asked : s'.asked = s.asked
  grants : s'.grants = s.grants
  granted : s'.granted = s.granted
  isOpen : s'.isOpen = s.isOpen
  rest : ∀ l, s'.queues l++s'.rx l = s.queues l++s.rx l

theorem Kept.go {s' : Limiter K} (h : Kept s) (hs : SameCallers s s')
    (hsleep : s'.phase = .sleeping → s'.isIdle = false ∧ ¬(1.0 : K) ≤ s'.tokens)
    (hpark : s'.phase = .parked → s'.isIdle = true)
    (hstop : s'.phase = .stopped → s'.isOpen = false ∧ ∀ l, s'.queues l = [] ∧ s'.rx l = [])
    (hclose : ∀ l k, s'.phase = .pulling l k → k ≤ l.before.length ∧
      (k = l.before.length → ∀ l' ∈ l.before, s'.isOpen = false ∧ s'.rx l' = [])) : Kept s' := by
  refine ⟨⟨fun l => ?_,?_,?_,fun l => ?_,?_,?_,?_,hsleep,hpark,fun hst => (hstop hst).2⟩,?_,
    fun hst => (hstop hst).1,hclose⟩
  · rw [hs.came,hs.turned,List.append_assoc,hs.rest l,← List.append_assoc]
    exact h.order l
  · rw [hs.came,hs.asked]
    exact h.once
  · rw [hs.turned,hs.waiters]
    exact h.settled
  · rw [hs.rest l,hs.waiters]
    exact h.pending l
  · rw [hs.grants,hs.turned,hs.waiters]
    exact h.logged
  · rw [hs.granted,hs.grants]
    exact h.counted
  · rw [hs.grants]
    exact h.fair
  · rw [hs.isOpen,hs.asked,hs.waiters]
    exact h.shut

/-- A step to a phase that promises nothing. -/
theorem Kept.goes {s' : Limiter K} (h : Kept s) (hs : SameCallers s s')
    (hphase : s'.phase = .pulling .send 0 ∨ s'.phase = .counting ∨ s'.phase = .granting ∨
      s'.phase = .lingering) : Kept s' := by
  refine h.go hs (fun hp => ?_) (fun hp => ?_) (fun hp => ?_) fun l k hp => ?_
  · rw [hp] at hphase
    simp at hphase
  · rw [hp] at hphase
    simp at hphase
  · rw [hp] at hphase
    simp at hphase
  · simp only [hp,DispatcherAt.pulling.injEq,reduceCtorEq,or_false] at hphase
    obtain ⟨rfl,rfl⟩ := hphase
    exact ⟨le_rfl,fun _ l' hl' => absurd hl' List.not_mem_nil⟩

omit [TokenArith K] in
theorem pull_rest (l l' : Lane) (closed : Nat) :
    (s.pull l closed).queues l'++(s.pull l closed).rx l' = s.queues l'++s.rx l' := by
  have hfields : (s.pull l closed).queues = Function.update s.queues l (s.queues l++s.rx l) ∧
      (s.pull l closed).rx = Function.update s.rx l [] := by
    unfold Limiter.pull
    cases l.next <;> exact ⟨rfl,rfl⟩
  rw [hfields.1,hfields.2]
  by_cases hl : l' = l
  · subst hl
    simp
  · rw [Function.update_of_ne hl,Function.update_of_ne hl]

omit [TokenArith K] in
theorem pull_same (l : Lane) (closed : Nat) : SameCallers s (s.pull l closed) := by
  refine ⟨?_,?_,?_,?_,?_,?_,?_,fun l' => pull_rest l l' closed⟩
  all_goals
    unfold Limiter.pull
    cases l.next <;> rfl

/-- What the count of closed channels says once this lane has been looked at. -/
theorem Kept.closing_pull (h : Kept s) {l : Lane} {closed : Nat} (hp : s.phase = .pulling l closed) :
    (if s.isOpen then closed else closed+1) ≤ l.before.length+1 ∧
    ((if s.isOpen then closed else closed+1) = l.before.length+1 →
      s.isOpen = false ∧ ∀ l' ∈ l :: l.before, Function.update s.rx l [] l' = []) := by
  obtain ⟨hle,hall⟩ := h.closing l closed hp
  cases ho : s.isOpen with
  | true =>
    simp only [if_true]
    exact ⟨by omega,fun he => by omega⟩
  | false =>
    simp only [Bool.false_eq_true,if_false]
    refine ⟨by omega,fun he => ⟨trivial,fun l' hl' => ?_⟩⟩
    by_cases hne : l' = l
    · subst hne
      exact Function.update_self ..
    · rw [Function.update_of_ne hne]
      exact (hall (by omega) l' ((List.mem_cons.mp hl').resolve_left hne)).2

omit [TokenArith K] in
theorem isIdle_iff : s.isIdle = true ↔ ∀ l, s.queues l = [] := by
  simp only [isIdle,hasWaiting,Bool.not_not,Bool.and_eq_true,List.isEmpty_iff]
  constructor
  · rintro ⟨⟨hs,hr⟩,hb⟩ l
    cases l with
    | send => exact hs
    | read => exact hr
    | background => exact hb
  · intro h
    exact ⟨⟨h _,h _⟩,h _⟩

theorem Kept.pull (h : Kept s) {l : Lane} {closed : Nat} (hp : s.phase = .pulling l closed) :
    Kept (s.pull l closed) := by
  obtain ⟨hle,hall⟩ := h.closing_pull hp
  have hsame := pull_same (s := s) l closed
  cases l with
  | send =>
    refine h.go hsame (fun he => nomatch he) (fun he => nomatch he) (fun he => nomatch he) ?_
    rintro l' k ⟨⟩
    exact ⟨hle,fun he l' hl' => ⟨(hall he).1,(hall he).2 l' (by simpa [Lane.before] using hl')⟩⟩
  | read =>
    refine h.go hsame (fun he => nomatch he) (fun he => nomatch he) (fun he => nomatch he) ?_
    rintro l' k ⟨⟩
    refine ⟨hle,fun he l' hl' => ⟨(hall he).1,(hall he).2 l' ?_⟩⟩
    simp only [Lane.before,List.mem_cons,List.not_mem_nil,or_false] at hl' ⊢
    exact hl'.symm
  | background =>
    cases hc : decide ((if s.isOpen then closed else closed+1) = 3) && (s.pull .background closed).isIdle with
    | false =>
      refine h.goes hsame (Or.inr (Or.inl ?_))
      show (if (decide ((if s.isOpen then closed else closed+1) = 3) &&
        (s.pull .background closed).isIdle) = true then DispatcherAt.stopped else .counting) = _
      rw [hc]
      rfl
    | true =>
      have hphase : (s.pull .background closed).phase = .stopped := by
        show (if (decide ((if s.isOpen then closed else closed+1) = 3) &&
          (s.pull .background closed).isIdle) = true then DispatcherAt.stopped else .counting) = _
        rw [hc]
        rfl
      simp only [Bool.and_eq_true,decide_eq_true_eq] at hc
      obtain ⟨hopen,hrx⟩ := hall hc.1
      have hqueues := isIdle_iff.mp hc.2
      refine h.go hsame (fun he => ?_) (fun he => ?_) (fun _ => ⟨hopen,fun l => ⟨hqueues l,?_⟩⟩)
        fun l k he => ?_
      · rw [hphase] at he
        cases he
      · rw [hphase] at he
        cases he
      · exact hrx l (by cases l <;> simp [Lane.before])
      · rw [hphase] at he
        cases he

/-- The parked dispatcher takes the first caller of a lane, or finds it closed. -/
theorem Kept.receive (h : Kept s) (l : Lane) : Kept (s.receive l) := by
  cases hrx : s.rx l with
  | nil =>
    have heq : s.receive l = { s with phase := .lingering } := by
      unfold Limiter.receive
      rw [hrx]
    rw [heq]
    exact h.goes ⟨rfl,rfl,rfl,rfl,rfl,rfl,rfl,fun _ => rfl⟩ (Or.inr (Or.inr (Or.inr rfl)))
  | cons w rest =>
    have heq : s.receive l = { s with
        rx := Function.update s.rx l rest
        queues := Function.update s.queues l (s.queues l++[w])
        phase := .pulling .send 0 } := by
      unfold Limiter.receive
      rw [hrx]
    rw [heq]
    refine h.goes ⟨rfl,rfl,rfl,rfl,rfl,rfl,rfl,fun l' => ?_⟩ (Or.inl rfl)
    by_cases hl : l' = l
    · subst hl
      simp [hrx]
    · simp only [Function.update_of_ne hl]

end Kept

section Grants

variable [TokenArith K] {c : LimiterConfig} {s : Limiter K} {e : LimiterEvent K}

theorem Kept.count (h : Kept s) (elapsed : K) : Kept (s.count c elapsed) := by
  refine h.goes ?_ (Or.inr (Or.inr (Or.inl rfl)))
  unfold Limiter.count
  split <;> exact ⟨rfl,rfl,rfl,rfl,rfl,rfl,rfl,fun _ => rfl⟩

/-- The loop ends for lack of a token, or because nobody waits. -/
theorem Kept.finish (h : Kept s) (hend : ¬(1.0 : K) ≤ s.tokens ∨ s.isIdle = true) :
    Kept s.finish := by
  have hsame : SameCallers s s.finish := ⟨rfl,rfl,rfl,rfl,rfl,rfl,rfl,fun _ => rfl⟩
  cases hi : s.isIdle with
  | true =>
    have hphase : s.finish.phase = .parked := if_pos hi
    refine h.go hsame (fun he => ?_) (fun _ => hi) (fun he => ?_) fun l k he => ?_
    all_goals
      rw [hphase] at he
      cases he
  | false =>
    have hphase : s.finish.phase = .sleeping := if_neg (by simp [hi])
    refine h.go hsame (fun _ => ⟨hi,hend.resolve_right (by simp [hi])⟩) (fun he => ?_) (fun he => ?_)
      fun l k he => ?_
    all_goals
      rw [hphase] at he
      cases he

theorem choose_none (h : s.choose = none) : s.isIdle = true := by
  unfold choose firstWaiting at h
  simp only [isIdle]
  split at h
  · cases h
  split at h
  · cases h
  split at h
  · cases h
  split at h
  · cases h
  split at h
  · cases h
  simp_all

/-- The lane that is chosen has a caller, and no lane has a better right. -/
theorem choose_some {l : Lane} {w : Nat} (ht : (1.0 : K) ≤ s.tokens) (h : s.choose = some l) :
    s.hasWaiting l = true ∧ (Grant.mk l w s.tokens s.credit s.hasWaiting).Fair := by
  unfold choose firstWaiting at h
  split at h
  · next hr =>
    simp only [Bool.and_eq_true,decide_eq_true_eq] at hr
    obtain rfl := Option.some.inj h
    refine ⟨hr.1,ht,fun _ _ _ => ⟨by simp,hr.2⟩,fun l' hl' hshare hl => ?_⟩
    simp only [Lane.before,List.mem_singleton] at hl
    exact (hshare ⟨by simp,hr.2⟩).1 hl
  next hr =>
  simp only [Bool.and_eq_true,decide_eq_true_eq,not_and] at hr
  split at h
  · next hb =>
    simp only [Bool.and_eq_true,decide_eq_true_eq] at hb
    obtain rfl := Option.some.inj h
    refine ⟨hb.1,ht,fun _ _ _ => ⟨by simp,hb.2⟩,fun l' hl' hshare hl => ?_⟩
    obtain ⟨hne,hcredit⟩ := hshare ⟨by simp,hb.2⟩
    simp only [Lane.before,List.mem_cons,List.not_mem_nil,or_false] at hl
    obtain rfl := hl.resolve_left hne
    exact hr hl' hcredit
  next hb =>
  simp only [Bool.and_eq_true,decide_eq_true_eq,not_and] at hb
  -- from here on no lane with a caller has a share
  have hnone : ∀ l', s.hasWaiting l' = true →
      ¬(Grant.mk l w s.tokens s.credit s.hasWaiting).HasShare l' := by
    intro l' hl' hshare
    cases l' with
    | send => exact hshare.1 rfl
    | read => exact hr hl' hshare.2
    | background => exact hb hl' hshare.2
  split at h
  · next hs =>
    obtain rfl := Option.some.inj h
    exact ⟨hs,ht,fun l' hl' hshare => absurd hshare (hnone l' hl'),fun _ _ _ => List.not_mem_nil⟩
  next hs =>
  split at h
  · next hr' =>
    obtain rfl := Option.some.inj h
    refine ⟨hr',ht,fun l' hl' hshare => absurd hshare (hnone l' hl'),fun l' hl' _ hl => ?_⟩
    obtain rfl := List.mem_singleton.mp hl
    exact hs hl'
  next hr' =>
  split at h
  · next hb' =>
    obtain rfl := Option.some.inj h
    refine ⟨hb',ht,fun l' hl' hshare => absurd hshare (hnone l' hl'),fun l' hl' _ hl => ?_⟩
    simp only [Lane.before,List.mem_cons,List.not_mem_nil,or_false] at hl
    rcases hl with rfl | rfl
    · exact hs hl'
    · exact hr' hl'
  · cases h

section Turn

variable {l : Lane} {w : Nat} {rest : List Nat}

/-- The head of a lane is nowhere else. -/
theorem Orderly.head (h : Orderly s) (hq : s.queues l = w :: rest) :
    (∀ l', w ∉ s.turned l') ∧ ∀ l', w ∉ (s.turn l w rest).queues l'++s.rx l' := by
  have hcame : w ∈ s.came l := h.mem_came.mpr (Or.inr (Or.inl (hq ▸ List.mem_cons_self)))
  have hnodup := lane_nodup h.nodup l
  rw [h.order l,hq] at hnodup
  have hin : w ∉ s.turned l ∧ w ∉ rest++s.rx l := by
    rw [List.append_assoc,List.cons_append,List.nodup_append',List.nodup_cons] at hnodup
    exact ⟨fun hw => hnodup.2.2 hw List.mem_cons_self,hnodup.2.1.1⟩
  constructor
  · intro l' hw
    obtain rfl := lane_unique h.nodup hcame (h.mem_came.mpr (Or.inl hw))
    exact hin.1 hw
  · intro l' hw
    by_cases hl : l' = l
    · subst hl
      rw [show (s.turn l' w rest).queues l' = rest from Function.update_self ..] at hw
      exact hin.2 hw
    · rw [show (s.turn l w rest).queues l' = s.queues l' from Function.update_of_ne hl ..] at hw
      exact hl (lane_unique h.nodup (h.mem_came.mpr (Or.inr (List.mem_append.mp hw))) hcame)

theorem turn_of_waiting (hw : s.waiters w = .waiting) : s.turn l w rest = { s with
    waiters := Function.update s.waiters w .granted
    tokens := s.tokens-1.0
    credit := if l = .send then s.credit
      else Function.update s.credit l (max (s.credit l-1.0) 0.0)
    granted := if s.isOpen then Function.update s.granted l (s.granted l+1) else s.granted
    grants := ⟨l,w,s.tokens,s.credit,s.hasWaiting⟩ :: s.grants
    queues := Function.update s.queues l rest
    turned := Function.update s.turned l (s.turned l++[w]) } := by
  unfold turn spend
  rw [if_pos hw]

theorem turn_of_gone (hw : s.waiters w ≠ .waiting) : s.turn l w rest = { s with
    queues := Function.update s.queues l rest
    turned := Function.update s.turned l (s.turned l++[w]) } := by
  unfold turn spend
  rw [if_neg hw]

theorem Orderly.order_turn (h : Orderly s) (hq : s.queues l = w :: rest) (l' : Lane) :
    s.came l' = Function.update s.turned l (s.turned l++[w]) l'++Function.update s.queues l rest l'++
      s.rx l' := by
  by_cases hl : l' = l
  · subst hl
    rw [Function.update_self,Function.update_self,h.order l',hq]
    simp
  · rw [Function.update_of_ne hl,Function.update_of_ne hl]
    exact h.order l'

/-- Those that are still to come have not been granted anything. -/
theorem Orderly.pending_turn (h : Orderly s) (hq : s.queues l = w :: rest) {l' : Lane} {x : Nat}
    (hx : x ∈ Function.update s.queues l rest l'++s.rx l') : s.waiters x ≠ .granted := by
  refine h.pending l' x ?_
  by_cases hl : l' = l
  · subst hl
    rw [Function.update_self] at hx
    rw [hq]
    exact List.mem_cons_of_mem _ hx
  · rwa [Function.update_of_ne hl] at hx

omit [TokenArith K] in
theorem mem_turned {l' : Lane} {x : Nat}
    (hx : x ∈ Function.update s.turned l (s.turned l++[w]) l') : x = w ∨ x ∈ s.turned l' := by
  by_cases hl : l' = l
  · subst hl
    rw [Function.update_self] at hx
    rcases List.mem_append.mp hx with hx | hx
    · exact Or.inr hx
    · exact Or.inl (List.mem_singleton.mp hx)
  · rw [Function.update_of_ne hl] at hx
    exact Or.inr hx

/-- A caller that has given up is passed over. -/
theorem Kept.pass (h : Kept s) (hq : s.queues l = w :: rest) (hphase : s.phase = .granting)
    (hw : s.waiters w ≠ .waiting) : Kept (s.turn l w rest) := by
  have hgone : s.waiters w ≠ .granted :=
    h.pending l w (List.mem_append_left _ (hq ▸ List.mem_cons_self))
  rw [turn_of_gone hw]
  refine ⟨⟨h.order_turn hq,h.once,fun l' x hx => ?_,fun l' x hx => h.pending_turn hq hx,fun l' => ?_,
    h.counted,h.fair,fun he => ?_,fun he => ?_,fun he => ?_⟩,h.shut,h.ended,fun l' k he => ?_⟩
  · rcases mem_turned hx with rfl | hx
    · exact hw
    · exact h.settled l' x hx
  · rw [h.logged l']
    show _ = ((Function.update s.turned l (s.turned l++[w]) l').filter fun x =>
      s.waiters x = .granted).reverse
    by_cases hl : l' = l
    · subst hl
      rw [Function.update_self,List.filter_append]
      simp [hgone]
    · rw [Function.update_of_ne hl]
  all_goals
    have he : s.phase = _ := he
    rw [hphase] at he
    cases he

/-- A caller that waits gets the token. -/
theorem Kept.serve (h : Kept s) (hq : s.queues l = w :: rest) (hphase : s.phase = .granting)
    (hfair : (Grant.mk l w s.tokens s.credit s.hasWaiting).Fair) (hw : s.waiters w = .waiting) :
    Kept (s.turn l w rest) := by
  obtain ⟨hturned,hahead⟩ := h.head hq
  have hasked : w < s.asked :=
    h.known (h.mem_came.mpr (Or.inr (Or.inl (hq ▸ List.mem_cons_self))))
  have hopen : s.isOpen = true := by
    by_contra ho
    exact h.shut (by simpa using ho) w hasked hw
  have hstate : ∀ x, x ≠ w → Function.update s.waiters w .granted x = s.waiters x :=
    fun x hx => Function.update_of_ne hx ..
  have hlogged : ∀ l', (s.grants.filter fun g => g.lane = l').map Grant.waiter =
      ((s.turned l').filter fun x => Function.update s.waiters w .granted x = .granted).reverse :=
    fun l' => h.granted_of fun x hx => hstate x fun he => hturned l' (he ▸ hx)
  rw [turn_of_waiting hw]
  refine ⟨⟨h.order_turn hq,h.once,fun l' x hx => ?_,fun l' x hx => ?_,fun l' => ?_,fun l' => ?_,?_,
    fun he => ?_,fun he => ?_,fun he => ?_⟩,fun ho => ?_,h.ended,fun l' k he => ?_⟩
  · by_cases hxw : x = w
    · subst hxw
      simp
    · show Function.update s.waiters w .granted x ≠ _
      rw [hstate x hxw]
      exact h.settled l' x ((mem_turned hx).resolve_left hxw)
  · show Function.update s.waiters w .granted x ≠ _
    rw [hstate x fun he => hahead l' (by rw [← he]; exact hx)]
    exact h.pending_turn hq hx
  · show ((⟨l,w,s.tokens,s.credit,s.hasWaiting⟩ :: s.grants).filter fun g => g.lane = l').map _ =
      ((Function.update s.turned l (s.turned l++[w]) l').filter fun x =>
        Function.update s.waiters w .granted x = .granted).reverse
    by_cases hl : l' = l
    · subst hl
      rw [Function.update_self,List.filter_append,List.reverse_append,← hlogged l']
      simp
    · rw [Function.update_of_ne hl,← hlogged l']
      simp [Ne.symm hl]
  · show (if s.isOpen = true then Function.update s.granted l (s.granted l+1) else s.granted) l' =
      (⟨l,w,s.tokens,s.credit,s.hasWaiting⟩ :: s.grants).countP _
    rw [if_pos hopen,List.countP_cons,← h.counted l']
    by_cases hl : l' = l
    · subst hl
      simp
    · rw [Function.update_of_ne hl]
      simp [Ne.symm hl]
  · intro g hg
    rcases List.mem_cons.mp hg with rfl | hg
    · exact hfair
    · exact h.fair g hg
  · have he : s.phase = _ := he
    rw [hphase] at he
    cases he
  · have he : s.phase = _ := he
    rw [hphase] at he
    cases he
  · have he : s.phase = _ := he
    rw [hphase] at he
    cases he
  · exact absurd (hopen.symm.trans ho) (by simp)
  · have he : s.phase = _ := he
    rw [hphase] at he
    cases he

end Turn

theorem Kept.grant (h : Kept s) (hphase : s.phase = .granting) : Kept s.grant := by
  by_cases ht : (1.0 : K) ≤ s.tokens
  · cases hc : s.choose with
    | none =>
      simp only [Limiter.grant,if_pos ht,hc]
      exact h.finish (Or.inr (choose_none hc))
    | some l =>
      cases hq : s.queues l with
      | nil =>
        have hwait := (choose_some (w := 0) ht hc).1
        simp [hasWaiting,hq] at hwait
      | cons w rest =>
        simp only [Limiter.grant,if_pos ht,hc,hq]
        by_cases hw : s.waiters w = .waiting
        · exact h.serve hq hphase (choose_some ht hc).2 hw
        · exact h.pass hq hphase hw
  · simp only [Limiter.grant,if_neg ht]
    exact h.finish (Or.inl ht)

theorem Kept.step (h : Kept s) (he : s.Allowed e) : Kept (s.step c e) := by
  cases e with
  | acquire l => exact h.acquire he l
  | giveUp w => exact h.giveUp he.2
  | penalize =>
    exact ⟨⟨h.order,h.once,h.settled,h.pending,h.logged,h.counted,h.fair,h.sleeping,h.parked,
      h.stopped⟩,h.shut,h.ended,h.closing⟩
  | close =>
    refine ⟨⟨h.order,h.once,h.settled,h.pending,h.logged,h.counted,h.fair,h.sleeping,h.parked,
      h.stopped⟩,fun _ => he.2,fun _ => rfl,fun l k hp => ?_⟩
    obtain ⟨hle,hall⟩ := h.closing l k hp
    exact ⟨hle,fun hk l' hl' => ⟨rfl,(hall hk l' hl').2⟩⟩
  | pull =>
    cases hp : s.phase with
    | pulling l closed =>
      simp only [Limiter.step,hp]
      exact h.pull hp
    | _ => simp [Allowed,hp,DispatcherAt.isPulling] at he
  | count elapsed => exact h.count elapsed
  | grant => exact h.grant he
  | wake => exact h.goes ⟨rfl,rfl,rfl,rfl,rfl,rfl,rfl,fun _ => rfl⟩ (Or.inl rfl)
  | receive l => exact h.receive l

theorem Kept.start : Kept (start c : Limiter K) where
  order _ := rfl
  once := List.Perm.refl []
  settled _ _ hw := absurd hw List.not_mem_nil
  pending _ _ hw := absurd hw List.not_mem_nil
  logged _ := rfl
  counted _ := rfl
  fair _ hg := absurd hg List.not_mem_nil
  sleeping hp := nomatch hp
  parked hp := nomatch hp
  stopped hp := nomatch hp
  shut ho := nomatch ho
  ended hp := nomatch hp
  closing := by
    rintro l k ⟨⟩
    exact ⟨le_rfl,fun _ l' hl' => absurd hl' List.not_mem_nil⟩

/-- Whatever the arithmetic, and however callers, penalties and the dispatcher take turns: no caller
is lost or served twice, each lane is served in order, and a grant goes to a lane with the best
right to it. -/
theorem limiter_orderly (c : LimiterConfig) (h : (machine c).Reaches (start c) s) : s.Orderly := by
  have hkept : Kept s := h.invariant .start fun _ _ hs he => hs.step he
  exact hkept.toOrderly

end Grants

/-- A broadcast and a probe wait; the probe's caller gives up. -/
def burstRun : List (LimiterEvent ℚ) :=
  [.acquire .background,.acquire .send,.pull,.pull,.pull,.giveUp 0,.count 0,.grant,.grant,.grant]

theorem limiter_orderly_gave_up :
    (machine ⟨20,4,2⟩).Runs (start ⟨20,4,2⟩ : Limiter ℚ) burstRun ∧
    (burstRun.foldl (step ⟨20,4,2⟩) (start ⟨20,4,2⟩)).grants.map Grant.waiter = [1] ∧
    (burstRun.foldl (step ⟨20,4,2⟩) (start ⟨20,4,2⟩)).Orderly := by
  have hrun : (machine ⟨20,4,2⟩).Runs (start ⟨20,4,2⟩ : Limiter ℚ) burstRun := by decide +kernel
  exact ⟨hrun,by decide +kernel,limiter_orderly _ hrun.reaches⟩

end Limiter

end GumEngine.Rpc
