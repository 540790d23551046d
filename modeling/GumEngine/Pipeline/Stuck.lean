import GumEngine.Pair.Gates

/-!
# When a nonce counts as stuck

The loop of `TxDriver::resolve` seen from the chain's height. A broadcast is followed by a
note of the cached head; a poll reads the newest block and escalates once that block is far
enough above the note. The cached head is whatever this task and others have observed.
-/

namespace GumEngine
open Transition

/-- The tunables that decide when a nonce is stuck. -/
structure StuckTunables where
  stuckAfterBlocks : Nat
  blockTimeMs : Nat
deriving DecidableEq, Repr

/-- `Duration::from_millis(stuck_after_blocks.max(1) * block_time_ms.max(1))` -/
def StuckTunables.stuckAfter (t : StuckTunables) : Nat :=
  max t.stuckAfterBlocks 1*max t.blockTimeMs 1

/-- Where the loop is: about to broadcast, in the call, between two polls, inside `escalate`,
watching a nonce that only an operator can help, or done. -/
inductive ResolveAt
  | pending | broadcasting | polling | escalating | parked | finished
deriving DecidableEq, Repr

/-- The true head when `escalate` was entered and when the newest attempt was last broadcast. -/
structure Escalated where
  tip : Nat
  broadcastTip : Nat
deriving DecidableEq, Repr

structure Watch where
  tip : Nat
  head : Nat
  status : ChainStatus
  now : Nat
  stage : ResolveAt
  sentHead : Nat
  sentAt : Nat
  broadcastTip : Nat
  escalated : List Escalated
deriving DecidableEq, Repr

/-- How a step of the loop goes on. -/
inductive ResolveNext
  | poll | rebroadcast | unresolved | done
deriving DecidableEq, Repr

def ResolveNext.stage : ResolveNext → ResolveAt
  | poll => .polling
  | rebroadcast => .pending
  | unresolved => .parked
  | done => .finished

inductive WatchEvent
  | grow (n : Nat)
  | tick (n : Nat)
  | observeHead (n : Nat)
  | setStatus (status : ChainStatus)
  | broadcast
  | answered (next : ResolveNext)
  | refused
  | look (latest : Option Nat)
  | receipt
  | escalateDone (next : ResolveNext)
deriving DecidableEq, Repr

namespace Watch

variable (t : StuckTunables) (s : Watch)

/-- `execute` and `resume` start with the cached head and a broadcast to be made. -/
def start (tip head now : Nat) : Watch :=
  ⟨tip,head,.healthy,now,.pending,head,now,0,[]⟩

/-- What follows a broadcast: `sent_head = head.max(sent_head)`, `sent_at = now`. -/
def noteSent (stage : ResolveAt) : Watch :=
  { s with stage := stage, sentHead := max s.head s.sentHead, sentAt := s.now }

/-- A poll that found no receipt; `latest` is the newest block as some backend sees it. -/
def look (latest : Option Nat) : Watch :=
  if s.status ≠ .healthy then { s with sentAt := s.now }
  else if s.now-s.sentAt < t.stuckAfter then s
  else
    match latest with
    | none => s
    | some n =>
      let s' := { s with head := max s.head n }
      if n < s.sentHead+t.stuckAfterBlocks then s'
      else { s' with
        stage := .escalating
        escalated := s.escalated++[⟨s.tip,s.broadcastTip⟩] }

def step : WatchEvent → Watch
  | .grow n => { s with tip := s.tip+n }
  | .tick n => { s with now := s.now+n }
  | .observeHead n => { s with head := max s.head n }
  | .setStatus status => { s with status := status }
  | .broadcast => { s with stage := .broadcasting, broadcastTip := s.tip }
  | .answered next => s.noteSent next.stage
  -- throttled or the breaker is open: nothing went out, and it is tried again
  | .refused => s.noteSent .pending
  | .look latest => s.look t latest
  | .receipt => { s with stage := .finished }
  | .escalateDone next => { s with stage := next.stage }

/-- Each event in its place in the loop; blocks that are seen exist. A call may send the same
bytes more than once. -/
def Allowed : WatchEvent → Prop
  | .observeHead n => n ≤ s.tip
  | .broadcast => s.stage = .pending ∨ s.stage = .broadcasting
  | .answered next => s.stage = .broadcasting ∧ next ≠ .unresolved
  | .refused => s.stage = .pending
  | .look latest => s.stage = .polling ∧ ∀ n ∈ latest, n ≤ s.tip
  | .receipt => s.stage = .polling ∨ s.stage = .parked
  | .escalateDone _ => s.stage = .escalating
  | .grow _ | .tick _ | .setStatus _ => True

instance : ∀ e, Decidable (s.Allowed e)
  | .observeHead _ => inferInstanceAs (Decidable (_ ≤ _))
  | .broadcast | .receipt => inferInstanceAs (Decidable (_ ∨ _))
  | .answered _ => inferInstanceAs (Decidable (_ ∧ _))
  | .look _ => inferInstanceAs (Decidable (_ ∧ _))
  | .refused | .escalateDone _ => inferInstanceAs (Decidable (_ = _))
  | .grow _ | .tick _ | .setStatus _ => inferInstanceAs (Decidable True)

def machine : Machine Watch WatchEvent := ⟨Allowed,fun s => s.step t⟩

instance (e : WatchEvent) : Decidable ((machine t).allowed s e) :=
  inferInstanceAs (Decidable (s.Allowed e))

/-- Every escalation came after the chain had grown by the configured number of blocks. -/
def CountedInBlocks : Prop :=
  ∀ e ∈ s.escalated, e.broadcastTip+t.stuckAfterBlocks ≤ e.tip

instance : Decidable (s.CountedInBlocks t) :=
  inferInstanceAs (Decidable (∀ e ∈ s.escalated, _))

/-- The note that a broadcast leaves is not below the true head at the broadcast. -/
def HeadKnown : WatchEvent → Prop
  | .answered _ => s.broadcastTip ≤ max s.head s.sentHead
  | _ => True

/-- Outside a broadcast the note is not below the true head at the last one. -/
structure Noted (s : Watch) : Prop where
  known : s.stage ≠ .broadcasting → s.broadcastTip ≤ s.sentHead
  counted : s.CountedInBlocks t

variable {t s}

/-- What leaves the note, the broadcast and the escalations alone. -/
theorem Noted.of_same {s' : Watch} (h : Noted t s) (hb : s'.broadcastTip = s.broadcastTip)
    (hsent : s'.sentHead = s.sentHead) (he : s'.escalated = s.escalated)
    (hstage : s'.stage ≠ .broadcasting → s.stage ≠ .broadcasting) : Noted t s' where
  known := fun hs => by rw [hb,hsent]; exact h.known (hstage hs)
  counted := fun e hmem => h.counted e (he ▸ hmem)

theorem Noted.look {latest : Option Nat} (h : Noted t s) (hstage : s.stage = .polling)
    (hlatest : ∀ n ∈ latest, n ≤ s.tip) : Noted t (s.look t latest) := by
  have hknown := h.known (by rw [hstage]; simp)
  unfold Watch.look
  split
  · exact h.of_same rfl rfl rfl id
  · split
    · exact h
    · cases latest with
      | none => exact h
      | some n =>
        dsimp only
        split
        · exact h.of_same rfl rfl rfl id
        next hfar =>
          refine ⟨fun _ => hknown,?_⟩
          intro e he
          obtain he | he := List.mem_append.1 he
          · exact h.counted e he
          · obtain rfl := List.mem_singleton.1 he
            have hn := hlatest n rfl
            show s.broadcastTip+t.stuckAfterBlocks ≤ s.tip
            omega

theorem Noted.step {e : WatchEvent} (h : Noted t s) (he : s.Allowed e) (hc : s.HeadKnown e) :
    Noted t (s.step t e) := by
  cases e with
  | grow n => exact h.of_same rfl rfl rfl id
  | tick n => exact h.of_same rfl rfl rfl id
  | observeHead n => exact h.of_same rfl rfl rfl id
  | setStatus status => exact h.of_same rfl rfl rfl id
  | broadcast => exact ⟨fun hs => absurd rfl hs,h.counted⟩
  | answered next => exact ⟨fun _ => hc,h.counted⟩
  | refused =>
    have hstage : s.stage = .pending := he
    have hknown := h.known (by rw [hstage]; simp)
    exact ⟨fun _ => hknown.trans (le_max_right _ _),h.counted⟩
  | look latest => exact h.look he.1 he.2
  | receipt =>
    refine h.of_same rfl rfl rfl fun _ => ?_
    obtain hs | hs := he
    · rw [hs]
      simp
    · rw [hs]
      simp
  | escalateDone next =>
    refine h.of_same rfl rfl rfl fun _ => ?_
    have hstage : s.stage = .escalating := he
    rw [hstage]
    simp

/-- A note below the true head at the broadcast, while too few blocks have come since. -/
structure Behind (t : StuckTunables) (s : Watch) : Prop where
  polling : s.stage = .polling
  lag : s.sentHead < s.broadcastTip
  early : s.tip < s.broadcastTip+t.stuckAfterBlocks

/-- From there on the nonce can be escalated before its time. -/
theorem Behind.escalates (h : Behind t s) :
    ∃ es, (machine t).Runs s es ∧ ¬ (es.foldl (machine t).step s).CountedInBlocks t := by
  have hlag := h.lag
  have hearly := h.early
  set height := max s.tip (s.sentHead+t.stuckAfterBlocks) with hheight
  have htip : s.tip+(height-s.tip) = height := by omega
  refine ⟨[.setStatus .healthy,.grow (height-s.tip),.tick (s.sentAt+t.stuckAfter),
    .look (some height)],⟨trivial,trivial,trivial,⟨h.polling,?_⟩,trivial⟩,?_⟩
  · intro n hn
    obtain rfl := Option.some.inj hn
    exact htip.ge
  · intro hcounted
    have hdue : ¬ s.now+(s.sentAt+t.stuckAfter)-s.sentAt < t.stuckAfter := by omega
    have hfar : ¬ height < s.sentHead+t.stuckAfterBlocks := by omega
    have hmem : Escalated.mk height s.broadcastTip ∈ ([WatchEvent.setStatus .healthy,
        .grow (height-s.tip),.tick (s.sentAt+t.stuckAfter),.look (some height)].foldl
          (machine t).step s).escalated := by
      simp [machine,Watch.step,Watch.look,hdue,hfar,htip]
    have hle : s.broadcastTip+t.stuckAfterBlocks ≤ height := hcounted _ hmem
    omega

end Watch

open Watch

/-- In every run whose broadcasts leave a note not below the true head, escalation is entered only
after the configured number of blocks; and from a state where that fails while the blocks have
not come yet, some run escalates too early. -/
theorem stuck_counted_in_blocks (t : StuckTunables) (tip head now : Nat) :
    (∀ s, ((Watch.machine t).restrict HeadKnown).Reaches (start tip head now) s →
      s.CountedInBlocks t ∧ (0 < t.stuckAfterBlocks → ∀ e ∈ s.escalated, e.broadcastTip < e.tip)) ∧
    ∀ s, (Watch.machine t).Reaches (start tip head now) s → s.Behind t →
      ∃ s', (Watch.machine t).Reaches (start tip head now) s' ∧ ¬ s'.CountedInBlocks t := by
  constructor
  · intro s h
    have hnoted := h.invariant (I := Noted t) ⟨fun _ => Nat.zero_le _,fun _ he => nomatch he⟩
      fun _ _ hs he => hs.step he.1 he.2
    refine ⟨hnoted.counted,fun hpos e he => ?_⟩
    have := hnoted.counted e he
    omega
  · intro s h hbehind
    obtain ⟨es,hrun,hbad⟩ := hbehind.escalates
    exact ⟨_,h.trans hrun.reaches,hbad⟩

/-- The cached head lags by 20 blocks when the bytes go out; the first poll after the waiting time
reads the same block 100 and escalates, although the chain has not moved. -/
def staleHead : List WatchEvent :=
  [.broadcast,.answered .poll,.tick 10000,.look (some 100)]

theorem escalates_on_a_stalled_chain :
    (Watch.machine ⟨5,2000⟩).Runs (start 100 80 0) staleHead ∧
      (staleHead.foldl (Watch.machine ⟨5,2000⟩).step (start 100 80 0)).escalated =
        [⟨100,100⟩] ∧
      ¬ (staleHead.foldl (Watch.machine ⟨5,2000⟩).step (start 100 80 0)).CountedInBlocks
        ⟨5,2000⟩ := by
  decide +kernel

/-- The cached head is up to date, and the chain grows before the poll. -/
def freshHead : List WatchEvent :=
  [.broadcast,.answered .poll,.grow 5,.tick 10000,.look (some 105)]

theorem stuck_counted_in_blocks_runs :
    ((freshHead.foldl (Watch.machine ⟨5,2000⟩).step (start 100 100 0)).escalated = [⟨105,100⟩] ∧
      (freshHead.foldl (Watch.machine ⟨5,2000⟩).step (start 100 100 0)).CountedInBlocks ⟨5,2000⟩) ∧
    ∃ s', (Watch.machine ⟨5,2000⟩).Reaches (start 100 80 0) s' ∧
      ¬ s'.CountedInBlocks ⟨5,2000⟩ := by
  have hfresh : ((Watch.machine ⟨5,2000⟩).restrict HeadKnown).Runs (start 100 100 0) freshHead :=
    ⟨⟨by decide,trivial⟩,⟨by decide,le_max_left 100 100⟩,⟨trivial,trivial⟩,⟨trivial,trivial⟩,
      ⟨by decide,trivial⟩,trivial⟩
  have hstale : (Watch.machine ⟨5,2000⟩).Runs (start 100 80 0) (staleHead.take 3) := by decide
  exact ⟨⟨rfl,((stuck_counted_in_blocks ⟨5,2000⟩ 100 100 0).1 _ hfresh.reaches).1⟩,
    (stuck_counted_in_blocks ⟨5,2000⟩ 100 80 0).2 _ hstale.reaches
      ⟨rfl,by decide,by decide⟩⟩

end GumEngine
