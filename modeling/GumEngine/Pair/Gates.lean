import GumEngine.Pair.Pause

/-!
# The gates of a worker and the monitor of its chain

`worker::run` of `pipeline/worker.rs` with `on_outage` and `on_recovered` of
`chain/monitor.rs`. Each step is one access to shared state: the monitor goes through the
pairs one at a time, and a worker reads the pause, the request and the flags separately.
The pauses and resumes of the rest of the engine and of the operator come in between at any
time.
-/

namespace GumEngine
open Transition

inductive ChainStatus
  | healthy | degraded | down
deriving DecidableEq, Repr

/-- Where the monitor of the chain is. -/
inductive MonitorAt (P : Type)
  | probing
  /-- `on_outage`, with the pairs it has not looked at. -/
  | pausing (todo : List P)
  /-- It found the first pair running. -/
  | pausingNext (pair : P) (todo : List P)
  /-- `on_recovered`, with the pairs it has not asked yet. -/
  | requesting (todo : List P)
deriving DecidableEq

/-- The pairs whose request is still to come. -/
def MonitorAt.owed {P : Type} : MonitorAt P → List P
  | requesting todo => todo
  | _ => []

/-- The reads that decide `blocked`, in their order. -/
inductive Gate
  | paused | draining | status | operatorPaused | globalPause
deriving DecidableEq, Repr

def Gate.next : Gate → Option Gate
  | paused => some draining
  | draining => some status
  | status => some operatorPaused
  | operatorPaused => some globalPause
  | globalPause => none

/-- Where a worker is. A popped job carries the number of recoveries at its pop, a recovery
that at its start. -/
inductive WorkerAt
  | top
  | asking
  | recovering (epoch : Nat)
  | gate (g : Gate)
  | blocked
  | waiting
  | popped (epoch : Nat)
  | unpaused (epoch : Nat)
  | unrequested (epoch : Nat)
  | processing (epoch : Nat)
  | stopped
deriving DecidableEq, Repr

def WorkerAt.isProcessing : WorkerAt → Bool
  | processing _ => true
  | _ => false

/-- What the reads of a worker that holds a job have established. -/
def WorkerAt.Passed (w : WorkerAt) (recoveries reconciled : Nat)
    (requested : Bool) : Prop :=
  match w with
  | .popped e => e ≤ recoveries
  | .unpaused e => e ≤ reconciled ∨ requested = true
  | .unrequested e => e ≤ reconciled
  | .processing e => e ≤ reconciled
  | _ => True

/-- A first bind: the recoveries of the chain when the job was popped, and those its pair has
reconciled with. -/
structure FirstBind (P : Type) where
  pair : P
  popped : Nat
  reconciled : Nat
deriving DecidableEq

/-- One chain. `recoveries` counts how often it went from down to healthy; `reconciled p` is
the highest such count at the start of a `recover_pair` of `p` that has returned. -/
structure Gates (P : Type) where
  status : ChainStatus
  operatorPaused : Bool
  globalPause : Bool
  shutdown : Bool
  monitor : MonitorAt P
  pair : P → PairState
  worker : P → WorkerAt
  recoveries : Nat
  reconciled : P → Nat
  binds : List (FirstBind P)

inductive GateEvent (P : Type)
  | degraded
  | outage
  | recovered
  /-- The monitor's loop over the pairs. -/
  | monitor (now : Nat)
  | call (pair : P) (c : PauseCall)
  | request (pair : P)
  | drain (pair : P) (on : Bool)
  | operatorPause (on : Bool)
  | globalPause (on : Bool)
  | shutdown
  /-- The worker's next access; of a `select`, the wake. -/
  | worker (pair : P)
  | pop (pair : P)
  | bind (pair : P)
  /-- Shutdown wins a `select`. -/
  | stop (pair : P)
  /-- The supervisor starts a worker that died. -/
  | restart (pair : P)

/-- What `on_outage` does with a pair it found running. -/
def PairState.pauseForOutage (s : PairState) (now : Nat) : PairState :=
  s.setPause now .chainOutage .awaitingChainHead
    "chain outage: waiting for the chain to produce blocks / the RPC to answer"

namespace Gates

variable {P : Type} [DecidableEq P]

def setPair (s : Gates P) (p : P) (st : PairState) : Gates P :=
  { s with pair := Function.update s.pair p st }

def goto (s : Gates P) (p : P) (w : WorkerAt) : Gates P :=
  { s with worker := Function.update s.worker p w }

def init (now : Nat) (loaded : P → Bool) : Gates P where
  status := .healthy
  operatorPaused := false
  globalPause := false
  shutdown := false
  monitor := .probing
  pair p := .new now (loaded p)
  worker _ := .top
  recoveries := 0
  reconciled _ := 0
  binds := []

/-- The gate lets the worker through. -/
def isOpen (s : Gates P) (p : P) : Gate → Bool
  | .paused => !(s.pair p).isPaused
  | .draining => !(s.pair p).draining
  | .status => s.status ≠ .down
  | .operatorPaused => !s.operatorPaused
  | .globalPause => !s.globalPause

/-- Never mask a pause that needs an operator or funds; those outlive the outage. -/
def monitorStep (s : Gates P) (now : Nat) : Gates P :=
  match s.monitor with
  | .probing => s
  | .pausing [] => { s with monitor := .probing }
  | .pausing (p :: todo) =>
    { s with monitor := if (s.pair p).isPaused then .pausing todo else .pausingNext p todo }
  | .pausingNext p todo =>
    { s.setPair p ((s.pair p).pauseForOutage now) with monitor := .pausing todo }
  | .requesting [] => { s with monitor := .probing }
  | .requesting (p :: todo) =>
    { s.setPair p (s.pair p).requestRecovery with monitor := .requesting todo }

def workerStep (s : Gates P) (p : P) : Gates P :=
  match s.worker p with
  | .top => s.goto p (if s.shutdown then .stopped else .asking)
  | .asking =>
    if (s.pair p).recoveryRequested then
      (s.setPair p { s.pair p with recoveryRequested := false }).goto p (.recovering s.recoveries)
    else s.goto p (.gate .paused)
  | .recovering e =>
    { s.goto p .top with reconciled := Function.update s.reconciled p (max (s.reconciled p) e) }
  | .gate g => s.goto p (if s.isOpen p g then g.next.elim .waiting .gate else .blocked)
  | .blocked => s.goto p .top
  | .waiting => s.goto p .top
  -- The pair may have been paused while it waited; the job goes back untouched.
  | .popped e => s.goto p (if (s.pair p).isPaused then .top else .unpaused e)
  | .unpaused e => s.goto p (if (s.pair p).recoveryRequested then .top else .unrequested e)
  | .unrequested e => s.goto p (if s.shutdown then .top else .processing e)
  | .processing _ => s.goto p .top
  | .stopped => s

/-- A first bind of the job the worker processes. -/
def bindFirst (s : Gates P) (p : P) : Gates P :=
  match s.worker p with
  | .processing e => { s with binds := s.binds ++ [⟨p,e,s.reconciled p⟩] }
  | _ => s

def step (roster : List P) (s : Gates P) : GateEvent P → Gates P
  | .degraded => { s with status := .degraded }
  | .outage => { s with status := .down, monitor := .pausing roster }
  | .recovered =>
    -- Every pair reconciles before it takes new work.
    if s.status = .down then
      { s with status := .healthy, monitor := .requesting roster, recoveries := s.recoveries+1 }
    else { s with status := .healthy }
  | .monitor now => s.monitorStep now
  | .call p c => s.setPair p (c.apply (s.pair p))
  | .request p => s.setPair p (s.pair p).requestRecovery
  | .drain p on => s.setPair p { s.pair p with draining := on }
  | .operatorPause on => { s with operatorPaused := on }
  | .globalPause on => { s with globalPause := on }
  | .shutdown => { s with shutdown := true }
  | .worker p => s.workerStep p
  | .pop p => s.goto p (.popped s.recoveries)
  | .bind p => s.bindFirst p
  | .stop p => s.goto p .stopped
  | .restart p => (s.setPair p (s.pair p).requestRecovery).goto p .top

/-- When an event can happen. -/
def Allowed (roster : List P) (s : Gates P) : GateEvent P → Prop
  | .degraded => s.monitor = .probing ∧ s.status = .healthy
  | .outage => s.monitor = .probing ∧ s.status ≠ .down
  | .recovered => s.monitor = .probing ∧ s.status ≠ .healthy
  | .monitor _ => s.monitor ≠ .probing
  | .worker p => p ∈ roster
  | .pop p => p ∈ roster ∧ s.worker p = .waiting
  | .bind p => p ∈ roster ∧ (s.worker p).isProcessing = true
  | .stop p => p ∈ roster ∧ s.shutdown = true ∧ (s.worker p = .blocked ∨ s.worker p = .waiting)
  | .restart p => p ∈ roster
  | _ => True

instance (roster : List P) (s : Gates P) : DecidablePred (Allowed roster s)
  | .degraded => inferInstanceAs (Decidable (s.monitor = .probing ∧ s.status = .healthy))
  | .outage => inferInstanceAs (Decidable (s.monitor = .probing ∧ s.status ≠ .down))
  | .recovered => inferInstanceAs (Decidable (s.monitor = .probing ∧ s.status ≠ .healthy))
  | .monitor _ => inferInstanceAs (Decidable (s.monitor ≠ .probing))
  | .worker p => inferInstanceAs (Decidable (p ∈ roster))
  | .pop p => inferInstanceAs (Decidable (p ∈ roster ∧ s.worker p = .waiting))
  | .bind p => inferInstanceAs (Decidable (p ∈ roster ∧ (s.worker p).isProcessing = true))
  | .stop p => inferInstanceAs (Decidable (p ∈ roster ∧ s.shutdown = true ∧
      (s.worker p = .blocked ∨ s.worker p = .waiting)))
  | .restart p => inferInstanceAs (Decidable (p ∈ roster))
  | .call _ _ => .isTrue trivial
  | .request _ => .isTrue trivial
  | .drain _ _ => .isTrue trivial
  | .operatorPause _ => .isTrue trivial
  | .globalPause _ => .isTrue trivial
  | .shutdown => .isTrue trivial

def machine (roster : List P) : Machine (Gates P) (GateEvent P) where
  allowed := Allowed roster
  step := step roster

instance (roster : List P) (s : Gates P) (e : GateEvent P) :
    Decidable ((machine roster).allowed s e) :=
  inferInstanceAs (Decidable (Allowed roster s e))

/-! ## Every pair reconciles before it takes new work -/

/-- The pair has not begun to reconcile since the chain came back, and the monitor has not
asked it to. -/
def Owes (s : Gates P) (p : P) : Prop :=
  p ∈ s.monitor.owed ∧ s.reconciled p < s.recoveries ∧ s.worker p ≠ .recovering s.recoveries

instance (s : Gates P) (p : P) : Decidable (s.Owes p) :=
  inferInstanceAs (Decidable (p ∈ s.monitor.owed ∧ s.reconciled p < s.recoveries ∧
    s.worker p ≠ .recovering s.recoveries))

/-- When the chain comes back every pair is paused or has a request pending, and no call
leaves a pair without either before the monitor has asked it. -/
def Guarded (roster : List P) (s : Gates P) : GateEvent P → Prop
  | .recovered => s.status = .down → ∀ p ∈ roster,
      (s.pair p).isPaused = true ∨ (s.pair p).recoveryRequested = true
  | .call p c => s.Owes p → (s.pair p).recoveryRequested = false →
      (c.apply (s.pair p)).isPaused = true
  | _ => True

instance (roster : List P) (s : Gates P) : DecidablePred (Guarded roster s)
  | .recovered => inferInstanceAs (Decidable (s.status = .down → ∀ p ∈ roster,
      (s.pair p).isPaused = true ∨ (s.pair p).recoveryRequested = true))
  | .call p c => inferInstanceAs (Decidable (s.Owes p → (s.pair p).recoveryRequested = false →
      (c.apply (s.pair p)).isPaused = true))
  | .degraded => .isTrue trivial
  | .outage => .isTrue trivial
  | .monitor _ => .isTrue trivial
  | .worker _ => .isTrue trivial
  | .pop _ => .isTrue trivial
  | .bind _ => .isTrue trivial
  | .stop _ => .isTrue trivial
  | .restart _ => .isTrue trivial
  | .request _ => .isTrue trivial
  | .drain _ _ => .isTrue trivial
  | .operatorPause _ => .isTrue trivial
  | .globalPause _ => .isTrue trivial
  | .shutdown => .isTrue trivial

/-- The pair has reconciled, is doing so, has been asked to, or is paused until it is. -/
structure Sound (s : Gates P) (p : P) : Prop where
  covered : s.recoveries ≤ s.reconciled p ∨ s.worker p = .recovering s.recoveries ∨
    (s.pair p).recoveryRequested = true ∨ (p ∈ s.monitor.owed ∧ (s.pair p).isPaused = true)
  passed : (s.worker p).Passed s.recoveries (s.reconciled p) (s.pair p).recoveryRequested

section Sound

variable {roster : List P} {s t : Gates P} {p q : P}

omit [DecidableEq P] in
/-- A step that leaves the pair, its worker and the counts alone. -/
theorem Sound.frame (h : s.Sound p) (hpair : t.pair p = s.pair p) (hw : t.worker p = s.worker p)
    (hr : t.reconciled p = s.reconciled p) (hn : t.recoveries = s.recoveries)
    (ho : p ∈ s.monitor.owed → p ∈ t.monitor.owed) : t.Sound p where
  covered := by
    rw [hpair,hw,hr,hn]
    exact h.covered.imp_right (Or.imp_right (Or.imp_right (And.imp_left ho)))
  passed := by
    rw [hpair,hw,hr,hn]
    exact h.passed

/-- The pair is changed, keeping its request, and is still paused where it has to be. -/
theorem Sound.setPair {st : PairState} (h : s.Sound q)
    (hreq : (s.pair p).recoveryRequested = true → st.recoveryRequested = true)
    (hpaused : s.Owes p → st.recoveryRequested = false → (s.pair p).isPaused = true →
      st.isPaused = true) : (s.setPair p st).Sound q := by
  by_cases hq : q = p
  · subst hq
    have hpair : (s.setPair q st).pair q = st := Function.update_self ..
    refine ⟨?_,?_⟩
    · rw [hpair]
      show s.recoveries ≤ s.reconciled q ∨ s.worker q = .recovering s.recoveries ∨
        st.recoveryRequested = true ∨ (q ∈ s.monitor.owed ∧ st.isPaused = true)
      by_cases hr : s.recoveries ≤ s.reconciled q
      · exact Or.inl hr
      by_cases hw : s.worker q = .recovering s.recoveries
      · exact Or.inr (Or.inl hw)
      cases hst : st.recoveryRequested with
      | true => exact Or.inr (Or.inr (Or.inl rfl))
      | false =>
        obtain hc | hc | hc | ⟨ho,hp⟩ := h.covered
        · exact absurd hc hr
        · exact absurd hc hw
        · rw [hreq hc] at hst
          cases hst
        · exact Or.inr (Or.inr (Or.inr ⟨ho,hpaused ⟨ho,not_le.mp hr,hw⟩ hst hp⟩))
    · rw [hpair]
      show (s.worker q).Passed s.recoveries (s.reconciled q) st.recoveryRequested
      have hpass := h.passed
      revert hpass
      cases s.worker q with
      | unpaused e => exact Or.imp_right hreq
      | _ => exact id
  · exact h.frame (Function.update_of_ne hq ..) rfl rfl rfl id

/-- The worker moves on, with what it has read. -/
theorem Sound.goto {w : WorkerAt} (h : s.Sound q) (hw : s.worker p ≠ .recovering s.recoveries)
    (hpass : q = p → w.Passed s.recoveries (s.reconciled p) (s.pair p).recoveryRequested) :
    (s.goto p w).Sound q := by
  by_cases hq : q = p
  · subst hq
    have hworker : (s.goto q w).worker q = w := Function.update_self ..
    refine ⟨?_,?_⟩
    · obtain hc | hc | hc := h.covered
      · exact Or.inl hc
      · exact absurd hc hw
      · exact Or.inr (Or.inr hc)
    · rw [hworker]
      exact hpass rfl
  · exact h.frame rfl (Function.update_of_ne hq ..) rfl rfl id

omit [DecidableEq P] in
theorem Sound.init (now : Nat) (loaded : P → Bool) (p : P) : (init now loaded).Sound p :=
  ⟨Or.inl le_rfl,trivial⟩

theorem Sound.monitorStep (h : s.Sound q) (now : Nat) : (s.monitorStep now).Sound q := by
  unfold Gates.monitorStep
  split
  next => exact h
  next hm => exact h.frame rfl rfl rfl rfl (by rw [hm]; exact id)
  next p todo hm =>
    refine h.frame rfl rfl rfl rfl ?_
    rw [hm]
    exact fun ho => absurd ho List.not_mem_nil
  next p todo hm =>
    have hp : (s.setPair p ((s.pair p).pauseForOutage now)).Sound q :=
      h.setPair id fun _ _ _ => rfl
    refine hp.frame rfl rfl rfl rfl ?_
    show q ∈ s.monitor.owed → _
    rw [hm]
    exact id
  next hm => exact h.frame rfl rfl rfl rfl (by rw [hm]; exact id)
  next p todo hm =>
    have hp : (s.setPair p (s.pair p).requestRecovery).Sound q :=
      h.setPair (fun _ => rfl) fun _ hf _ => absurd hf (by simp [PairState.requestRecovery])
    by_cases hq : q = p
    · -- The pair leaves the monitor's list with its request.
      subst hq
      refine ⟨Or.inr (Or.inr (Or.inl ?_)),hp.passed⟩
      show (Function.update s.pair q _ q).recoveryRequested = true
      rw [Function.update_self]
      rfl
    · refine hp.frame rfl rfl rfl rfl ?_
      show q ∈ s.monitor.owed → q ∈ todo
      rw [hm]
      exact fun ho => (List.mem_cons.mp ho).resolve_left hq

theorem Sound.workerStep (h : s.Sound q) (hp : s.Sound p) : (s.workerStep p).Sound q := by
  have hpass := hp.passed
  unfold Gates.workerStep
  split
  next hw =>
    refine h.goto (by simp [hw]) fun _ => ?_
    split <;> trivial
  next hw =>
    split
    next hreq =>
      by_cases hq : q = p
      · subst hq
        exact ⟨Or.inr (Or.inl (Function.update_self ..)),by
          show (Function.update s.worker q _ q).Passed _ _ _
          rw [Function.update_self]
          trivial⟩
      · exact h.frame (Function.update_of_ne hq ..) (Function.update_of_ne hq ..) rfl rfl id
    next => exact h.goto (by simp [hw]) fun _ => trivial
  next e hw =>
    by_cases hq : q = p
    · subst hq
      refine ⟨?_,?_⟩
      · show s.recoveries ≤ Function.update s.reconciled q _ q ∨ _
        rw [Function.update_self]
        obtain hc | hc | hc := h.covered
        · exact Or.inl (le_max_of_le_left hc)
        · rw [hw,WorkerAt.recovering.injEq] at hc
          exact Or.inl (le_max_of_le_right hc.ge)
        · exact Or.inr (Or.inr hc)
      · show (Function.update s.worker q _ q).Passed _ _ _
        rw [Function.update_self]
        trivial
    · exact h.frame rfl (Function.update_of_ne hq ..) (Function.update_of_ne hq ..) rfl id
  next g hw =>
    refine h.goto (by simp [hw]) fun _ => ?_
    split
    · cases g <;> trivial
    · trivial
  next hw => exact h.goto (by simp [hw]) fun _ => trivial
  next hw => exact h.goto (by simp [hw]) fun _ => trivial
  next e hw =>
    refine h.goto (by simp [hw]) fun _ => ?_
    rw [hw] at hpass
    split
    · trivial
    next hrun =>
      obtain hc | hc | hc | hc := hp.covered
      · exact Or.inl (le_trans hpass hc)
      · rw [hw] at hc
        cases hc
      · exact Or.inr hc
      · exact absurd hc.2 hrun
  next e hw =>
    refine h.goto (by simp [hw]) fun _ => ?_
    rw [hw] at hpass
    split
    · trivial
    next hreq => exact hpass.resolve_right hreq
  next e hw =>
    refine h.goto (by simp [hw]) fun _ => ?_
    rw [hw] at hpass
    split
    · trivial
    · exact hpass
  next e hw => exact h.goto (by simp [hw]) fun _ => trivial
  next => exact h

omit [DecidableEq P] in
/-- The chain comes back while every pair is paused or asked to reconcile. -/
theorem Sound.recovered (h : s.Sound q) (hq : q ∈ roster)
    (hguard : (s.pair q).isPaused = true ∨ (s.pair q).recoveryRequested = true) :
    Sound { s with status := .healthy, monitor := .requesting roster,
                   recoveries := s.recoveries+1 } q where
  covered := Or.inr (Or.inr (hguard.symm.imp_right fun hp => ⟨hq,hp⟩))
  passed := by
    have hpass := h.passed
    show (s.worker q).Passed (s.recoveries+1) (s.reconciled q) (s.pair q).recoveryRequested
    revert hpass
    cases s.worker q with
    | popped e => exact Nat.le_succ_of_le
    | _ => exact id

/-- One step keeps every pair sound. -/
theorem Sound.step {e : GateEvent P} (h : ∀ q ∈ roster, s.Sound q) (ha : Allowed roster s e)
    (hg : Guarded roster s e) : ∀ q ∈ roster, (s.step roster e).Sound q := by
  intro q hq
  have hs := h q hq
  cases e with
  | degraded => exact hs.frame rfl rfl rfl rfl id
  | outage =>
    refine hs.frame rfl rfl rfl rfl ?_
    rw [ha.1]
    exact id
  | recovered =>
    show Sound (if _ then _ else _) q
    split
    next hd => exact hs.recovered hq (hg hd q hq)
    next => exact hs.frame rfl rfl rfl rfl id
  | monitor now => exact hs.monitorStep now
  | call p c =>
    have hreq : (c.apply (s.pair p)).recoveryRequested = (s.pair p).recoveryRequested := by
      cases c <;> simp only [PauseCall.apply,PairState.setPause,PairState.resumeIf] <;>
        first | rfl | (split <;> rfl)
    refine hs.setPair (fun hr => hreq.trans hr) fun ho hf _ => hg ho ?_
    exact hreq.symm.trans hf
  | request p =>
    exact hs.setPair (fun _ => rfl) fun _ hf _ => absurd hf (by simp [PairState.requestRecovery])
  | drain p on => exact hs.setPair id fun _ _ hp => hp
  | operatorPause on => exact hs.frame rfl rfl rfl rfl id
  | globalPause on => exact hs.frame rfl rfl rfl rfl id
  | shutdown => exact hs.frame rfl rfl rfl rfl id
  | worker p => exact hs.workerStep (h p ha)
  | pop p => exact hs.goto (by simp [ha.2]) fun _ => le_rfl
  | bind p =>
    show (s.bindFirst p).Sound q
    unfold bindFirst
    split
    · exact hs.frame rfl rfl rfl rfl id
    · exact hs
  | stop p =>
    refine hs.goto ?_ fun _ => trivial
    rcases ha.2.2 with hw | hw <;> simp [hw]
  | restart p =>
    have hp : (s.setPair p (s.pair p).requestRecovery).Sound q :=
      hs.setPair (fun _ => rfl) fun _ hf _ => absurd hf (by simp [PairState.requestRecovery])
    by_cases hqp : q = p
    · subst hqp
      refine ⟨Or.inr (Or.inr (Or.inl ?_)),?_⟩
      · show (Function.update s.pair q _ q).recoveryRequested = true
        rw [Function.update_self]
        rfl
      · show (Function.update s.worker q _ q).Passed _ _ _
        rw [Function.update_self]
        trivial
    · exact hp.frame rfl (Function.update_of_ne hqp ..) rfl rfl id

/-- The binds a step records. -/
theorem step_binds (roster : List P) (s : Gates P) (e : GateEvent P) :
    (s.step roster e).binds = s.binds ∨ ∃ p n, s.worker p = .processing n ∧ e = .bind p ∧
      (s.step roster e).binds = s.binds ++ [⟨p,n,s.reconciled p⟩] := by
  cases e with
  | bind p =>
    by_cases hw : ∃ n, s.worker p = .processing n
    · obtain ⟨n,hw⟩ := hw
      refine Or.inr ⟨p,n,hw,rfl,?_⟩
      show (s.bindFirst p).binds = _
      simp only [bindFirst,hw]
    · left
      show (s.bindFirst p).binds = _
      unfold bindFirst
      split
      next n hn => exact absurd ⟨n,hn⟩ hw
      next => rfl
  | recovered =>
    left
    show Gates.binds (if _ then _ else _) = _
    split <;> rfl
  | monitor now =>
    left
    show (s.monitorStep now).binds = _
    unfold monitorStep
    split <;> rfl
  | worker p =>
    left
    show (s.workerStep p).binds = _
    unfold workerStep
    split <;> first | rfl | (split <;> rfl)
  | _ => exact Or.inl rfl

end Sound

/-- Whenever a job is bound first, its pair has run `recover_pair` since the last time the chain
came back before the job was popped. -/
theorem reconciled_before_bind (roster : List P) (now : Nat) (loaded : P → Bool) {s : Gates P}
    (h : ((machine roster).restrict (Guarded roster)).Reaches (init now loaded) s) :
    ∀ b ∈ s.binds, b.popped ≤ b.reconciled := by
  have hI := h.invariant
    (I := fun s => (∀ p ∈ roster, s.Sound p) ∧ ∀ b ∈ s.binds, b.popped ≤ b.reconciled)
    ⟨fun p _ => Sound.init now loaded p,fun b hb => absurd hb List.not_mem_nil⟩ ?_
  · exact hI.2
  · rintro s e ⟨hs,hb⟩ ⟨ha,hg⟩
    refine ⟨Sound.step hs ha hg,?_⟩
    show ∀ b ∈ (s.step roster e).binds, _
    obtain heq | ⟨p,n,hw,rfl,heq⟩ := step_binds roster s e
    · rw [heq]
      exact hb
    · rw [heq]
      intro b hmem
      rcases List.mem_append.mp hmem with hmem | hmem
      · exact hb b hmem
      · have hp := (hs p ha.1).passed
        rw [hw] at hp
        rw [List.mem_singleton.mp hmem]
        exact hp

/-- A pair boots and reconciles. -/
def booted : List (GateEvent Unit) :=
  [.worker (),.worker (),.call () (.resumeIf 1 .booting),.worker ()]

/-- Its worker goes through the gates and takes a job. -/
def takesJob : List (GateEvent Unit) :=
  [.worker (),.worker (),.worker (),.worker (),.worker (),.worker (),.worker (),.pop (),.worker (),
   .worker (),.worker (),.bind ()]

/-- The pair waits for funds when the outage begins, so it is not paused for it; the top-up
lands while the chain is down. When the chain comes back its worker is faster than the monitor's
loop. -/
def fundedInOutage : List (GateEvent Unit) :=
  booted ++ [.call () (.pause 2 .insufficientFunds .awaitingTreasuryTopup "balance below cost"),
    .outage,.monitor 3,.monitor 3,.call () (.resumeIf 4 .insufficientFunds),.recovered] ++ takesJob

theorem bind_before_reconciling :
    (machine [()]).Runs (init 0 fun _ => false) fundedInOutage ∧
      ((fundedInOutage.foldl (step [()]) (init 0 fun _ => false)).binds = [⟨(),1,0⟩]) := by
  refine ⟨?_,?_⟩ <;> decide +kernel

/-- A pair that runs when the outage begins is paused for it, reconciles and is resumed. -/
def pausedInOutage : List (GateEvent Unit) :=
  booted ++ [.outage,.monitor 2,.monitor 2,.monitor 2,.recovered,.monitor 3,.monitor 3,.worker (),
    .worker (),.call () (.resumeIf 4 .chainOutage),.worker ()] ++ takesJob

theorem reconciled_before_bind_outage :
    (pausedInOutage.foldl (step [()]) (init 0 fun _ => false)).binds = [⟨(),1,1⟩] ∧
      ∀ b ∈ (pausedInOutage.foldl (step [()]) (init 0 fun _ => false)).binds,
        b.popped ≤ b.reconciled := by
  have h : ((machine [()]).restrict (Guarded [()])).Runs (init 0 fun _ => false) pausedInOutage := by
    decide +kernel
  exact ⟨by decide +kernel,reconciled_before_bind [()] 0 (fun _ => false) h.reaches⟩

end Gates

end GumEngine
