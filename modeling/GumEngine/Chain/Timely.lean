import GumEngine.Chain.Monitor

/-!
# When the status of a chain changes

The monitor of `chain/monitor.rs` with a runtime that runs what is due within a latency and an RPC
client that answers a probe within its budget: how late an outage is noticed, and how long it is
kept up.
-/

namespace GumEngine
open Transition

/-- The runtime runs what is due within `latency`, and a probe is answered within `budget`. -/
structure Punctuality where
  latency : Nat
  budget : Nat
deriving DecidableEq, Repr

namespace MonitorPhase

variable {d : Punctuality} {now base : Nat} {p : MonitorPhase}

/-- The loop has not been where it is for too long. -/
def Within (d : Punctuality) (now : Nat) : MonitorPhase → Prop
  | waiting due => now ≤ due+d.latency
  | probing sent _ => now ≤ sent+d.budget
  | judging answered => now ≤ answered+d.latency
  | starting | stopped => True

instance (d : Punctuality) (now : Nat) : ∀ p : MonitorPhase, Decidable (p.Within d now)
  | waiting _ | probing _ _ | judging _ => inferInstanceAs (Decidable (_ ≤ _))
  | starting | stopped => inferInstanceAs (Decidable True)

/-- The round that wakes at `base` at the latest. -/
def By (d : Punctuality) (base : Nat) : MonitorPhase → Prop
  | waiting due => due ≤ base
  | probing sent _ => sent ≤ base+d.latency
  | judging answered => answered ≤ base+d.latency+d.budget
  | starting | stopped => True

/-- The loop has begun and not ended. -/
def IsRunning (p : MonitorPhase) : Prop := p ≠ starting ∧ p ≠ stopped

theorem By.mono {base' : Nat} (h : p.By d base) (hle : base ≤ base') : p.By d base' := by
  cases p with
  | waiting due => exact h.trans hle
  | probing sent before => exact h.trans (Nat.add_le_add_right hle _)
  | judging answered =>
    exact h.trans (Nat.add_le_add_right (Nat.add_le_add_right hle _) _)
  | starting => trivial
  | stopped => trivial

theorem By.now_le (h : p.By d base) (hw : p.Within d now) (hp : p.IsRunning) :
    now ≤ base+2*d.latency+d.budget := by
  cases p with
  | waiting due =>
    have := Nat.le_trans hw (Nat.add_le_add_right h _)
    omega
  | probing sent before =>
    have := Nat.le_trans hw (Nat.add_le_add_right h _)
    omega
  | judging answered =>
    have := Nat.le_trans hw (Nat.add_le_add_right h _)
    omega
  | starting => exact absurd rfl hp.1
  | stopped => exact absurd rfl hp.2

end MonitorPhase

namespace ChainMonitor

/-- Time does not run past what the runtime and the RPC client promise. -/
def Punctual (d : Punctuality) (s : ChainMonitor) : MonitorEvent → Prop
  | .tick n => s.phase.Within d (s.now+n)
  | _ => True

instance (d : Punctuality) (s : ChainMonitor) : ∀ e, Decidable (s.Punctual d e)
  | .tick n => inferInstanceAs (Decidable (s.phase.Within d (s.now+n)))
  | .observeHead _ _ | .begin | .wake _ | .answer _ | .judge | .shutdown =>
    inferInstanceAs (Decidable True)

/-- From the last sign of the chain to the end of the round that finds it missing. -/
def unheard (t : MonitorTunables) (d : Punctuality) : Nat :=
  t.idle+250+2*d.latency+d.budget

/-- From there to the outage. -/
def unanswered (t : MonitorTunables) (d : Punctuality) : Nat :=
  t.stallOutage+t.fast+2*d.latency+d.budget

/-- An outage is noticed in time, and it ends soon after the last probe that failed. -/
structure Timely (t : MonitorTunables) (d : Punctuality) (s : ChainMonitor) : Prop where
  noticed : s.phase.IsRunning → s.health.status ≠ .down →
    s.now ≤ s.began+unheard t d+unanswered t d ∨
      ∃ x ∈ s.seen, s.now ≤ x.time+unheard t d+unanswered t d
  left : s.phase.IsRunning → s.health.status ≠ .healthy →
    ∃ p ∈ s.probes, p.good = false ∧ s.now ≤ p.time+t.fast+3*d.latency+d.budget

/-- The last sign of the chain, or the begin of the loop. -/
def lastSign (s : ChainMonitor) : Nat := max (s.health.lastObserved.getD 0) s.began

/-- How far each round may have got, by the last sign, the begin of the trouble and the last
probe that failed. -/
structure OnTime (t : MonitorTunables) (d : Punctuality) (s : ChainMonitor) : Prop where
  began : s.began ≤ s.now
  fresh : s.phase = .starting → s.troubleSince = none
  within : s.phase.Within d s.now
  calm : s.calm = true → s.phase.By d (s.lastSign+t.idle+250)
  noted : ∀ since ∈ s.troubleSince, since ≤ s.lastSign+unheard t d
  pressing : ∀ since ∈ s.troubleSince, s.health.status ≠ .down →
    s.phase.By d (since+t.stallOutage+t.fast)
  alarmed : s.health.status ≠ .healthy → s.troubleSince.isSome = true
  probed : s.troubleSince.isSome = true →
    ∃ p ∈ s.probes, p.good = false ∧ s.phase.By d (p.time+d.latency+t.fast)

section OnTime

variable {t : MonitorTunables} {d : Punctuality} {s : ChainMonitor} {e : MonitorEvent}

theorem calm_iff : s.calm = true ↔ s.health.status = .healthy ∧ s.troubleSince = none := by
  simp [ChainMonitor.calm]

theorem lastSign_le (h : Recorded s) (hb : s.began ≤ s.now) : s.lastSign ≤ s.now := by
  unfold lastSign
  cases ho : s.health.lastObserved with
  | none => simpa using hb
  | some o =>
    obtain ⟨x,hx,rfl⟩ := h.covers.observed o ho
    exact max_le (h.seen x hx) hb

theorem OnTime.start (now : Nat) : OnTime t d (start now) where
  began := le_rfl
  fresh _ := rfl
  within := trivial
  calm _ := trivial
  noted _ hs := nomatch hs
  pressing _ hs := nomatch hs
  alarmed hs := absurd rfl hs
  probed hs := nomatch hs

theorem OnTime.tick (h : OnTime t d s) {n : Nat} (hp : s.phase.Within d (s.now+n)) :
    OnTime t d { s with now := s.now+n } :=
  { h with
    began := h.began.trans (Nat.le_add_right ..)
    within := hp }

theorem OnTime.observeHead (h : OnTime t d s) (hr : Recorded s) (number : Nat)
    (hash : Option B256) : OnTime t d (s.observeHead number hash) := by
  have hsign : s.lastSign ≤ (s.observeHead number hash).lastSign := by
    have hle := lastSign_le hr h.began
    simp only [lastSign,ChainMonitor.observeHead,HealthView.observeHead_lastObserved,
      Option.getD_some] at hle ⊢
    omega
  have hst : (s.observeHead number hash).health.status = s.health.status :=
    observeHead_status number hash
  refine ⟨h.began,h.fresh,h.within,fun hc => ?_,fun since hs => ?_,?_,?_,h.probed⟩
  · rw [calm_iff,hst] at hc
    exact (h.calm (calm_iff.mpr hc)).mono (by omega)
  · exact (h.noted since hs).trans (Nat.add_le_add_right hsign _)
  · rw [hst]
    exact h.pressing
  · rw [hst]
    exact h.alarmed

theorem OnTime.healthy (h : OnTime t d s) (hs : s.troubleSince = none) :
    s.health.status = .healthy := by
  by_contra hne
  simpa [hs] using h.alarmed hne

theorem OnTime.calm_of (h : OnTime t d s) (hs : s.troubleSince = none) : s.calm = true :=
  calm_iff.mpr ⟨h.healthy hs,hs⟩

theorem wait_of_calm (hc : s.calm = true) :
    s.wait t = max (t.idle-(s.health.lastObserved.elim t.idle fun o => s.now-o)) 250 :=
  if_pos hc

theorem wait_le (hc : s.calm = true) : s.wait t ≤ t.idle+250 := by
  rw [wait_of_calm hc]
  omega

/-- After good news the loop sleeps from this sign of the chain on. -/
theorem OnTime.quiet (hb : s.began ≤ s.now) (hsign : s.now ≤ s.lastSign) (hc : s.calm = true) :
    OnTime t d (s.loop t) where
  began := hb
  fresh hp := nomatch hp
  within := by
    show s.now ≤ s.now+s.wait t+d.latency
    omega
  calm _ := by
    have hwait : s.wait t ≤ t.idle+250 := wait_le hc
    show s.now+s.wait t ≤ s.lastSign+t.idle+250
    omega
  noted since hs := by
    have hs : s.troubleSince = some since := hs
    rw [(calm_iff.mp hc).2] at hs
    cases hs
  pressing since hs := by
    have hs : s.troubleSince = some since := hs
    rw [(calm_iff.mp hc).2] at hs
    cases hs
  alarmed hs := absurd (calm_iff.mp hc).1 hs
  probed hs := by
    have hs : s.troubleSince.isSome = true := hs
    rw [(calm_iff.mp hc).2] at hs
    cases hs

theorem OnTime.begin (h : OnTime t d s) (hp : s.phase = .starting) :
    OnTime t d ({ s with began := s.now }.loop t) := by
  refine OnTime.quiet le_rfl (le_max_right ..) ?_
  exact calm_iff.mpr (calm_iff.mp (h.calm_of (h.fresh hp)))

theorem OnTime.recovered (hb : s.began ≤ s.now) (ho : s.health.lastObserved = some s.now) :
    OnTime t d (s.recovered t) := by
  refine OnTime.quiet hb ?_ (calm_iff.mpr ⟨rfl,rfl⟩)
  show s.now ≤ max (s.health.lastObserved.getD 0) s.began
  rw [ho]
  exact le_max_left ..

theorem OnTime.failed (h : OnTime t d s) {sent : Nat} {before : HealthView}
    (hp : s.phase = .probing sent before) : OnTime t d s.failed := by
  have hnow : s.now ≤ sent+d.budget := by
    have hw := h.within
    rwa [hp] at hw
  have hby : ∀ {base : Nat}, s.phase.By d base → s.failed.phase.By d base := by
    intro base hb
    rw [hp] at hb
    exact hnow.trans (Nat.add_le_add_right hb _)
  refine ⟨h.began,(fun hs => nomatch hs),Nat.le_add_right ..,fun hc => hby (h.calm hc),h.noted,
    fun since hs hd => hby (h.pressing since hs hd),h.alarmed,fun hs => ?_⟩
  obtain ⟨p,hpr,hbad,hle⟩ := h.probed hs
  exact ⟨p,List.mem_cons_of_mem _ hpr,hbad,hby hle⟩

/-- Traffic tells enough: the sleep starts over, reckoned from it. -/
theorem OnTime.again (h : OnTime t d s) (hr : Recorded s) (hc : s.calm = true) {o : Nat}
    (ho : s.health.lastObserved = some o) (hq : s.now-o < t.idle) : OnTime t d (s.loop t) := by
  have hpast : o ≤ s.now := by
    obtain ⟨x,hx,rfl⟩ := hr.covers.observed o ho
    exact hr.seen x hx
  have hsign : o ≤ s.lastSign := by
    unfold lastSign
    rw [ho]
    exact le_max_left ..
  have hwait : s.wait t = max (t.idle-(s.now-o)) 250 := by
    rw [wait_of_calm hc,ho,Option.elim_some]
  have hnone : s.troubleSince = none := (calm_iff.mp hc).2
  refine ⟨h.began,(fun hs => nomatch hs),?_,fun _ => ?_,h.noted,fun since hs => ?_,h.alarmed,
    fun hs => ?_⟩
  · show s.now ≤ s.now+s.wait t+d.latency
    omega
  · show s.now+s.wait t ≤ s.lastSign+t.idle+250
    omega
  · cases hnone.symm.trans hs
  · have hs : s.troubleSince.isSome = true := hs
    rw [hnone] at hs
    cases hs

theorem OnTime.probe (h : OnTime t d s) {due : Nat} (hp : s.phase = .waiting due) :
    OnTime t d { s with phase := .probing s.now s.health } := by
  have hnow : s.now ≤ due+d.latency := by
    have hw := h.within
    rwa [hp] at hw
  have hby : ∀ {base : Nat}, s.phase.By d base →
      (MonitorPhase.probing s.now s.health).By d base := by
    intro base hb
    rw [hp] at hb
    exact hnow.trans (Nat.add_le_add_right hb _)
  refine ⟨h.began,(fun hs => nomatch hs),Nat.le_add_right ..,fun hc => hby (h.calm hc),h.noted,
    fun since hs hd => hby (h.pressing since hs hd),h.alarmed,fun hs => ?_⟩
  obtain ⟨p,hpr,hbad,hle⟩ := h.probed hs
  exact ⟨p,hpr,hbad,hby hle⟩

theorem OnTime.wake (h : OnTime t d s) (hr : Recorded s) {due : Nat} (hp : s.phase = .waiting due)
    (breakerOpen : Bool) : OnTime t d (s.wake t breakerOpen) := by
  unfold ChainMonitor.wake
  split
  · next hc =>
    simp only [Bool.and_eq_true,Option.any_eq_true,decide_eq_true_eq] at hc
    obtain ⟨⟨hc,-⟩,o,ho,hq⟩ := hc
    exact h.again hr hc ho hq
  · exact h.probe hp

/-- While the chain is not called down, the trouble is younger than an outage. -/
theorem young_of_verdict {since : Nat} (hne : s.verdict t since ≠ .down) :
    s.health.status ≠ .down ∧ s.now < since+t.stallOutage := by
  have hstalled : s.now-since ≤ s.stalledFor t since := by
    unfold stalledFor
    cases t.liveness with
    | headAdvance => exact le_max_right ..
    | rpcResponsive => exact le_rfl
  have hst : s.health.status ≠ .down := by
    intro hst
    refine hne ?_
    simp [verdict,hst]
  have hlt : s.stalledFor t since < t.stallOutage := by
    by_contra hge
    refine hne (if_pos ?_)
    simp only [ge_iff_le,Bool.and_eq_true,decide_eq_true_eq]
    exact ⟨Nat.not_lt.mp hge,hst⟩
  exact ⟨hst,by omega⟩

theorem OnTime.judge (h : OnTime t d s) (hr : Recorded s) {answered : Nat}
    (hp : s.phase = .judging answered) : OnTime t d (s.judge t) := by
  have hnow : s.now ≤ answered+d.latency := by
    have hw := h.within
    rwa [hp] at hw
  have hsome : (s.judge t).troubleSince = some (s.troubleSince.getD s.now) := rfl
  have hcalm : (s.judge t).calm ≠ true := by
    intro hc
    rw [calm_iff,hsome] at hc
    cases hc.2
  have hdue : (s.judge t).phase = .waiting (s.now+t.fast) := by
    show MonitorPhase.waiting (s.now+ite ((s.judge t).calm = true) _ _) = _
    rw [if_neg hcalm]
  refine ⟨h.began,(fun hs => nomatch hs),?_,fun hc => absurd hc hcalm,fun since hs => ?_,
    fun since hs hd => ?_,fun _ => rfl,fun _ => ?_⟩
  · rw [hdue]
    show s.now ≤ s.now+t.fast+d.latency
    omega
  · obtain rfl := Option.some.inj (hsome.symm.trans hs)
    show s.troubleSince.getD s.now ≤ s.lastSign+unheard t d
    cases htr : s.troubleSince with
    | some since => exact h.noted since htr
    | none =>
      have hby := h.calm (h.calm_of htr)
      rw [hp] at hby
      have hby : answered ≤ s.lastSign+t.idle+250+d.latency+d.budget := hby
      show s.now ≤ s.lastSign+(t.idle+250+2*d.latency+d.budget)
      omega
  · obtain rfl := Option.some.inj (hsome.symm.trans hs)
    have hyoung := (young_of_verdict hd).2
    rw [hdue]
    show s.now+t.fast ≤ s.troubleSince.getD s.now+t.stallOutage+t.fast
    omega
  · obtain ⟨-,hhead,-⟩ := hr.judging answered hp
    refine ⟨_,List.mem_of_mem_head? hhead,rfl,?_⟩
    rw [hdue]
    show s.now+t.fast ≤ answered+d.latency+t.fast
    omega

theorem OnTime.answer (h : OnTime t d s) (hr : Recorded s) {sent : Nat} {before : HealthView}
    (hp : s.phase = .probing sent before) (a : ProbeAnswer) : OnTime t d (s.answer t before a) := by
  cases a with
  | failed => exact h.failed hp
  | null => exact h.failed hp
  | block number hash =>
    simp only [ChainMonitor.answer]
    have hseen : OnTime t d (s.observeHead number (some hash)) := h.observeHead hr number _
    split
    · exact .recovered hseen.began HealthView.observeHead_lastObserved
    · exact hseen.failed hp

theorem OnTime.shutdown (h : OnTime t d s) : OnTime t d { s with phase := .stopped } where
  began := h.began
  fresh hs := nomatch hs
  within := trivial
  calm _ := trivial
  noted := h.noted
  pressing _ _ _ := trivial
  alarmed := h.alarmed
  probed hs := by
    obtain ⟨p,hpr,hbad,-⟩ := h.probed hs
    exact ⟨p,hpr,hbad,trivial⟩

theorem OnTime.step (h : OnTime t d s) (hr : Recorded s) (he : s.Allowed e) (hp : s.Punctual d e) :
    OnTime t d (s.step t e) := by
  cases e with
  | tick n => exact h.tick hp
  | observeHead number hash => exact h.observeHead hr number hash
  | begin => exact h.begin he
  | wake breakerOpen =>
    obtain ⟨due,hphase⟩ := MonitorPhase.isWaiting_iff.mp he
    exact h.wake hr hphase breakerOpen
  | answer a =>
    obtain ⟨sent,before,hphase⟩ := MonitorPhase.isProbing_iff.mp he
    simp only [ChainMonitor.step,hphase]
    exact h.answer hr hphase a
  | judge =>
    obtain ⟨answered,hphase⟩ := MonitorPhase.isJudging_iff.mp he
    exact h.judge hr hphase
  | shutdown => exact h.shutdown

theorem OnTime.timely (h : OnTime t d s) (hr : Recorded s) : Timely t d s where
  noticed hrun hst := by
    have hlast : s.now ≤ s.lastSign+unheard t d+unanswered t d := by
      cases htr : s.troubleSince with
      | some since =>
        have hby := (h.pressing since htr hst).now_le h.within hrun
        have hnoted := h.noted since htr
        unfold unanswered
        omega
      | none =>
        have hby := (h.calm (h.calm_of htr)).now_le h.within hrun
        unfold unheard
        omega
    unfold lastSign at hlast
    rcases Nat.le_total (s.health.lastObserved.getD 0) s.began with hle | hle
    · rw [max_eq_right hle] at hlast
      exact Or.inl hlast
    · rw [max_eq_left hle] at hlast
      cases ho : s.health.lastObserved with
      | none =>
        rw [ho,Option.getD_none] at hlast
        exact Or.inl (by omega)
      | some o =>
        rw [ho,Option.getD_some] at hlast
        obtain ⟨x,hx,rfl⟩ := hr.covers.observed o ho
        exact Or.inr ⟨x,hx,hlast⟩
  left hrun hst := by
    obtain ⟨p,hp,hbad,hby⟩ := h.probed (h.alarmed hst)
    have hnow := hby.now_le h.within hrun
    exact ⟨p,hp,hbad,by omega⟩

/-- As long as the runtime and the RPC client are punctual: a loop that has not called the chain
down has begun, or seen the chain, within the time of a silent round and an outage; and a chain
it does not call healthy has failed a probe within the time of one round. -/
theorem monitor_timely (t : MonitorTunables) (d : Punctuality) {now : Nat} {s : ChainMonitor}
    (h : ((machine t).restrict (Punctual d)).Reaches (start now) s) : Timely t d s := by
  have hinv : Recorded s ∧ OnTime t d s :=
    h.invariant (I := fun s => Recorded s ∧ OnTime t d s) ⟨.start now,.start now⟩
      fun _ _ hs he => ⟨hs.1.step he.1,hs.2.step hs.1 he.1 he.2⟩
  exact hinv.2.timely hinv.1

end OnTime

theorem monitor_timely_one_probe :
    ((machine ⟨60000,5000,5000,15000,.headAdvance⟩).restrict (Punctual ⟨10,1000⟩)).Runs (start 0)
      (quietMinute++[MonitorEvent.judge]) ∧
    ((quietMinute++[MonitorEvent.judge]).foldl (step ⟨60000,5000,5000,15000,.headAdvance⟩)
      (start 0)).health.status = .down ∧
    Timely ⟨60000,5000,5000,15000,.headAdvance⟩ ⟨10,1000⟩
      ((quietMinute++[MonitorEvent.judge]).foldl (step ⟨60000,5000,5000,15000,.headAdvance⟩) (start 0)) := by
  have hrun : ((machine ⟨60000,5000,5000,15000,.headAdvance⟩).restrict (Punctual ⟨10,1000⟩)).Runs
      (start 0) (quietMinute++[MonitorEvent.judge]) := by decide
  exact ⟨hrun,by decide,monitor_timely _ _ hrun.reaches⟩

end ChainMonitor

end GumEngine
