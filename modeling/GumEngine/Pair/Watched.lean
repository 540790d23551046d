import GumEngine.Chain.Monitor

/-!
# The monitor's loop beside the workers of its chain

`run` of `chain/monitor.rs` with its clock and its probes, together with the gates its pairs'
workers go through. In the gates alone an outage may begin and end at any time; here it does
when the loop says so.
-/

namespace GumEngine
open Transition

/-- The monitor of a chain and the gates of the chain's pairs. -/
structure WatchedPairs (P : Type) where
  monitor : ChainMonitor
  gates : Gates P

inductive WatchedEvent (P : Type)
  | loop (e : MonitorEvent)
  | gate (e : GateEvent P)

/-- `on_outage`, `on_recovered` or the plain `set_status` behind a change of the status. -/
def ChainStatus.effect {P : Type} : ChainStatus → GateEvent P
  | healthy => .recovered
  | degraded => .degraded
  | down => .outage

/-- A change of the status, which only the monitor makes. -/
def GateEvent.isStatus {P : Type} : GateEvent P → Bool
  | degraded | outage | recovered => true
  | _ => false

/-- The clock and the sightings, which go on while the loop goes through the pairs. -/
def MonitorEvent.isOutside : MonitorEvent → Bool
  | tick _ | observeHead _ _ => true
  | _ => false

namespace WatchedPairs

variable {P : Type} [DecidableEq P]

def start (now : Nat) (loaded : P → Bool) : WatchedPairs P := ⟨.start now,.init now loaded⟩

def step (t : MonitorTunables) (roster : List P) (w : WatchedPairs P) :
    WatchedEvent P → WatchedPairs P
  | .loop e =>
    let monitor := w.monitor.step t e
    if monitor.health.status = w.monitor.health.status then { w with monitor := monitor }
    else ⟨monitor,w.gates.step roster monitor.health.status.effect⟩
  | .gate e => { w with gates := w.gates.step roster e }

def Allowed (roster : List P) (w : WatchedPairs P) : WatchedEvent P → Prop
  | .loop e => w.monitor.Allowed e ∧ (e.isOutside = true ∨ w.gates.monitor = .probing)
  | .gate e => w.gates.Allowed roster e ∧ e.isStatus = false

instance (roster : List P) (w : WatchedPairs P) : ∀ e, Decidable (w.Allowed roster e)
  | .loop _ | .gate _ => inferInstanceAs (Decidable (_ ∧ _))

def machine (t : MonitorTunables) (roster : List P) : Machine (WatchedPairs P) (WatchedEvent P) :=
  ⟨Allowed roster,step t roster⟩

instance (t : MonitorTunables) (roster : List P) (w : WatchedPairs P) (e : WatchedEvent P) :
    Decidable ((machine t roster).allowed w e) :=
  inferInstanceAs (Decidable (w.Allowed roster e))

section Refines

variable {t : MonitorTunables} {roster : List P} {now : Nat} {loaded : P → Bool}
  {w : WatchedPairs P}

theorem step_isOutside {m : ChainMonitor} {e : MonitorEvent} (he : e.isOutside = true) :
    (m.step t e).health.status = m.health.status := by
  cases e with
  | tick n => rfl
  | observeHead number hash => exact ChainMonitor.observeHead_status number hash
  | begin => cases he
  | wake breakerOpen => cases he
  | answer a => cases he
  | judge => cases he
  | shutdown => cases he

theorem effect_status (g : Gates P) (status : ChainStatus) :
    (g.step roster status.effect).status = status := by
  cases status with
  | healthy =>
    show Gates.status (if _ then _ else _) = _
    split <;> rfl
  | degraded => rfl
  | down => rfl

omit [DecidableEq P] in
/-- A justified change is one the gates allow. -/
theorem effect_allowed {g : Gates P} {m : ChainMonitor} {e : MonitorEvent} {status : ChainStatus}
    (hg : g.monitor = .probing) (hs : g.status = m.health.status) (hne : status ≠ m.health.status)
    (hj : m.Justified t e m.health.status status) : g.Allowed roster status.effect := by
  cases status with
  | healthy => exact ⟨hg,fun hst => hne (hst.symm.trans hs)⟩
  | down => exact ⟨hg,fun hst => hne (hst.symm.trans hs)⟩
  | degraded =>
    cases hst : m.health.status with
    | healthy => exact ⟨hg,hs.trans hst⟩
    | degraded => exact absurd hst.symm hne
    | down =>
      rw [hst] at hj
      exact hj.elim

theorem gate_status {g : Gates P} {e : GateEvent P} (he : e.isStatus = false) :
    (g.step roster e).status = g.status := by
  cases e with
  | degraded => cases he
  | outage => cases he
  | recovered => cases he
  | monitor now =>
    show (g.monitorStep now).status = g.status
    unfold Gates.monitorStep
    split
    · rfl
    · rfl
    · split <;> rfl
    · rfl
    · rfl
    · rfl
  | worker p =>
    show (g.workerStep p).status = g.status
    unfold Gates.workerStep
    split <;> first | rfl | (split <;> rfl)
  | bind p =>
    show (g.bindFirst p).status = g.status
    unfold Gates.bindFirst
    split <;> rfl
  | _ => rfl

/-- What the loop beside the workers keeps. -/
structure Refines (roster : List P) (now : Nat) (loaded : P → Bool) (w : WatchedPairs P) : Prop where
  recorded : w.monitor.Recorded
  status : w.gates.status = w.monitor.health.status
  reaches : (Gates.machine roster).Reaches (.init now loaded) w.gates

theorem Refines.start : Refines roster now loaded (start now loaded) :=
  ⟨.start now,rfl,.refl _⟩

theorem Refines.loop (h : Refines roster now loaded w) {e : MonitorEvent} (he : w.monitor.Allowed e)
    (hg : e.isOutside = true ∨ w.gates.monitor = .probing) :
    Refines roster now loaded (w.step t roster (.loop e)) := by
  have hrec : (w.monitor.step t e).Recorded := h.recorded.step he
  by_cases hst : (w.monitor.step t e).health.status = w.monitor.health.status
  · rw [show w.step t roster (.loop e) = { w with monitor := w.monitor.step t e } from if_pos hst]
    exact ⟨hrec,h.status.trans hst.symm,h.reaches⟩
  · rw [show w.step t roster (.loop e) =
      ⟨w.monitor.step t e,w.gates.step roster (w.monitor.step t e).health.status.effect⟩ from
        if_neg hst]
    have hprobing : w.gates.monitor = .probing := hg.resolve_left fun ho => hst (step_isOutside ho)
    have hallowed : w.gates.Allowed roster (w.monitor.step t e).health.status.effect :=
      effect_allowed hprobing h.status hst (h.recorded.justified he hst)
    exact ⟨hrec,effect_status _ _,h.reaches.tail hallowed⟩

theorem Refines.gate (h : Refines roster now loaded w) {e : GateEvent P}
    (he : w.gates.Allowed roster e) (hn : e.isStatus = false) :
    Refines roster now loaded (w.step t roster (.gate e)) :=
  ⟨h.recorded,(gate_status hn).trans h.status,h.reaches.tail he⟩

/-- However the loop, its probes, the sightings, the workers and the operators take turns: the
pairs' gates go through a run of the gates' machine, in which the chain is healthy, degraded or
down when the monitor calls it so. -/
theorem monitor_refines_gates (t : MonitorTunables) (roster : List P) (now : Nat)
    (loaded : P → Bool) {w : WatchedPairs P}
    (h : (machine t roster).Reaches (start now loaded) w) :
    (Gates.machine roster).Reaches (.init now loaded) w.gates ∧
      w.gates.status = w.monitor.health.status := by
  have hinv := h.invariant (I := Refines roster now loaded) .start fun w e hw he => by
    cases e with
    | loop e => exact hw.loop he.1 he.2
    | gate e => exact hw.gate (t := t) he.1 he.2
  exact ⟨hinv.reaches,hinv.status⟩

end Refines

/-- One failed probe after a quiet minute: the pair, which runs, is paused. -/
def pausedByProbe : List (WatchedEvent Unit) :=
  ([.worker (),.worker (),.call () (.resumeIf 1 .booting),.worker ()].map .gate)++
    (ChainMonitor.quietMinute++[MonitorEvent.judge]).map .loop++[.gate (.monitor 60000),.gate (.monitor 60000)]

theorem monitor_refines_gates_paused :
    (machine ⟨60000,5000,5000,15000,.headAdvance⟩ [()]).Runs (start 0 fun _ => false) pausedByProbe ∧
    ((pausedByProbe.foldl (step ⟨60000,5000,5000,15000,.headAdvance⟩ [()])
      (start 0 fun _ => false)).gates.pair ()).isPaused = true ∧
    (Gates.machine [()]).Reaches (.init 0 fun _ => false)
      (pausedByProbe.foldl (step ⟨60000,5000,5000,15000,.headAdvance⟩ [()])
        (start 0 fun _ => false)).gates ∧
    (pausedByProbe.foldl (step ⟨60000,5000,5000,15000,.headAdvance⟩ [()])
      (start 0 fun _ => false)).gates.status = .down := by
  have hrun : (machine ⟨60000,5000,5000,15000,.headAdvance⟩ [()]).Runs (start 0 fun _ => false)
      pausedByProbe := by decide
  obtain ⟨hreach,hstatus⟩ := monitor_refines_gates _ [()] 0 (fun _ => false) hrun.reaches
  exact ⟨hrun,by decide,hreach,hstatus.trans (by decide)⟩

end WatchedPairs

end GumEngine
