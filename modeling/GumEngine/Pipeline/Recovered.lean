import GumEngine.Pipeline.Recovery

/-!
# Recovery is total and ordered

The invariant of `recover_pair`: what is done with and what lies ahead make up the map of
live nonces, every note of the log is in its place, and `next_nonce` is placed past the mark,
which covers whatever was bound and not released.
-/

namespace GumEngine
open Relational Transition Sequence

/-! ## The invariant of the walk -/

/-- The nonces not yet done with. -/
def RecoverAt.ahead : RecoverAt → Option (List (Nat × List Attempt))
  | walking todo => some todo
  | verifying _ n group todo | demoting _ n group todo | driving n group todo =>
    some ((n,group) :: todo)
  | ensuring | counting _ | weighing | finished => some []
  | loading | retrying | returned _ => none

/-- `next_nonce` is set. -/
def RecoverAt.placed : RecoverAt → Bool
  | weighing | finished => true
  | _ => false

/-- Nothing is paused for a reason that recovery answers to. -/
def PairState.Cleared (q : PairState) : Prop :=
  ∀ x, q.pause = some x → x.reason ≠ .booting ∧ x.reason ≠ .nonceDrift ∧ x.reason ≠ .reorg

/-- What is known where recovery stands, of its log, its task, the flags of the pair, and
whether the process was told to stop. -/
def RecoverAt.Stands (ctx : ChainCtx) (p : PairKey) (log : List RecoverNote) (task : Activity)
    (pair : PairState) (stopped : Bool) : RecoverAt → Prop
  | loading => log = []
  | verifying included _ group _ => group.find? (fun a => a.status = .included) = some included
  | demoting included _ group _ => group.find? (fun a => a.status = .included) = some included ∧
      ∃ r, log.head? = some (.looked included (some r)) ∧ usable ctx included (some r) = false
  | driving n _ _ => task.Own p ∧ task.Drives n
  | retrying | returned .retry => pair.recoveryRequested = true
  | returned .operator => ∃ x, pair.pause = some x ∧ x.recoveryStep = .needsOperator
  | returned .stopped => stopped = true
  | finished => pair.Cleared
  | walking _ | ensuring | counting _ | weighing => True

/-- The chain's nonce is not read yet. -/
def RecoverAt.early : RecoverAt → Bool
  | weighing | retrying | returned _ | finished => false
  | _ => true

structure Walked (ctx : ChainCtx) (p : PairKey) (s : Recovery) : Prop where
  live : ∀ a ∈ s.live, a.rawTx ≠ [] ∧ a.slot = p.slot a.nonce
  path : ∀ ahead, s.stage.ahead = some ahead → Path ctx s.live s.log ahead
  journal : Journal ctx s.live s.log
  stands : s.stage.Stands ctx p s.log (s.world.tasks p) s.pair (s.shutdown || s.stopSending)
  uncounted : s.stage.early = true → ∀ n, .counted n ∉ s.log
  counted : s.stage.placed = true → ∀ n, .counted n ∈ s.log → n ≤ s.world.nextNonce p

theorem RecoverNote.Proper.of_due {ctx : ChainCtx} {live : List Attempt} {log : List RecoverNote}
    {note : RecoverNote} {n : Nat} (hn : note.nonce = some n) (hdue : Due ctx live log n)
    (hlooked : ∀ a answer, note ≠ .looked a answer) (hdemoted : ∀ a, note ≠ .demoted a) :
    note.Proper ctx live log := by
  refine ⟨?_,fun a answer h => absurd h (hlooked a answer),fun a h => absurd h (hdemoted a)⟩
  intro m hm
  obtain rfl : n = m := Option.some.inj (hn.symm.trans hm)
  exact hdue

section Steps

variable {chains : ChainId → ChainKind} {ctx : ChainCtx} {p : PairKey} {s : Recovery}

theorem Walked.start (h : History) (pair : PairState) (now : Nat) :
    Walked ctx p (.start h pair now) := by
  refine ⟨?_,?_,.nil,rfl,?_,?_⟩
  · rintro a ⟨⟩
  · rintro ahead ⟨⟩
  · rintro - n ⟨⟩
  · rintro ⟨⟩

/-- The tasks of other pairs, the settle queue and the chain. -/
theorem History.step_elsewhere (chains : ChainId → ChainKind) (h : History) {e : Event}
    (he : e.Elsewhere p) :
    (h.step chains e).world.tasks p = h.world.tasks p ∧
      (h.step chains e).world.nextNonce p = h.world.nextNonce p := by
  cases e with
  | op o => exact ⟨rfl,rfl⟩
  | mine k m => exact ⟨rfl,rfl⟩
  | restart => cases he
  | task q i => exact h.world.turn_apart chains q i p fun hq => he hq.symm

theorem Walked.other (h : Walked ctx p s) {e : Event} (he : e.Elsewhere p) :
    Walked ctx p { s with history := s.history.step chains e } := by
  obtain ⟨htask,hnext⟩ := s.history.step_elsewhere chains he
  refine ⟨h.live,h.path,h.journal,?_,h.uncounted,?_⟩
  · show s.stage.Stands ctx p s.log ((s.history.step chains e).world.tasks p) s.pair _
    rw [htask]
    exact h.stands
  · show _ → ∀ n, _ → n ≤ (s.history.step chains e).world.nextNonce p
    rw [hnext]
    exact h.counted

/-- The flags of the pair and the tokens, while recovery is under way. -/
theorem Walked.flags (h : Walked ctx p s) (hover : s.stage.over = false) {q : PairState}
    (hq : s.pair.recoveryRequested = true → q.recoveryRequested = true) (shutdown stop : Bool) :
    Walked ctx p { s with pair := q, shutdown := shutdown, stopSending := stop } := by
  refine ⟨h.live,h.path,h.journal,?_,h.uncounted,h.counted⟩
  have hs := h.stands
  show s.stage.Stands ctx p s.log (s.world.tasks p) q _
  cases hstage : s.stage with
  | retrying =>
    rw [hstage] at hs
    exact hq hs
  | returned why =>
    rw [hstage] at hover
    cases hover
  | finished =>
    rw [hstage] at hover
    cases hover
  | _ =>
    rw [hstage] at hs
    exact hs

/-- Recovery goes on where log and task already are. -/
theorem Walked.goto (h : Walked ctx p s) (hearly : s.stage.early = true) {stage : RecoverAt}
    (hplaced : stage.placed = false)
    (hpath : ∀ ahead, stage.ahead = some ahead → s.stage.ahead = some ahead)
    (hstands : stage.Stands ctx p s.log (s.world.tasks p) s.pair (s.shutdown || s.stopSending)) :
    Walked ctx p (s.goto stage) := by
  refine ⟨h.live,fun ahead ha => h.path ahead (hpath ahead ha),h.journal,hstands,?_,?_⟩
  · exact fun _ => h.uncounted hearly
  · intro hp
    rw [show (s.goto stage).stage.placed = false from hplaced] at hp
    cases hp

theorem Walked.retry (h : Walked ctx p s) : Walked ctx p s.retry :=
  ⟨h.live,by rintro ahead ⟨⟩,h.journal,rfl,by rintro ⟨⟩,by rintro ⟨⟩⟩

theorem Walked.load (h : Walked ctx p s) {answered : Bool}
    (hb : ∀ live ∈ (loadLiveAttemptsFor s.world.store p.chainId p.signer).toOption,
      ∀ a ∈ live, a.rawTx ≠ []) : Walked ctx p (s.load p answered) := by
  unfold Recovery.load
  split
  · next hstage =>
    split
    · split
      · next live hl =>
        have hs := h.stands
        rw [hstage] at hs
        have hlog : s.log = [] := hs
        rw [hl] at hb
        refine ⟨?_,?_,?_,trivial,?_,by rintro ⟨⟩⟩
        · exact fun a ha => ⟨hb live rfl a ha,loadLive_slot hl ha⟩
        · rintro ahead ⟨⟩
          refine ⟨[],rfl,?_⟩
          show [] = (resolved ctx s.log).reverse
          rw [hlog]
          rfl
        · show Journal ctx live s.log
          rw [hlog]
          exact .nil
        · intro _ n hn
          have hn : RecoverNote.counted n ∈ s.log := hn
          rw [hlog] at hn
          cases hn
      · exact h
    · exact h
  · exact h

/-- The stored bytes of the nonce ahead are sent again. -/
theorem Walked.rebroadcast (h : Walked ctx p s) {n now : Nat} {group : List Attempt}
    {todo : List (Nat × List Attempt)} (hearly : s.stage.early = true)
    (hahead : s.stage.ahead = some ((n,group) :: todo)) (chain : ChainKind) :
    Walked ctx p (s.rebroadcast chain p now n group todo) := by
  have hpath := h.path _ hahead
  obtain ⟨hne,hgroup⟩ := nonceMap_group hpath.entry
  obtain ⟨f,hf,hn,htodo⟩ := resume_sends chain [] hne
    (fun a ha => (h.live a (hgroup a ha).1).1) fun a ha => (hgroup a ha).2
  have hown : (resume chain group []).Own p := by
    refine .resume ⟨n,fun a ha => ?_⟩ (by rintro g ⟨⟩)
    rw [← (hgroup a ha).2]
    exact (h.live a (hgroup a ha).1).2
  unfold Recovery.rebroadcast
  dsimp only
  rw [hf]
  refine ⟨h.live,?_,?_,⟨?_,?_⟩,?_,by rintro ⟨⟩⟩
  · rintro ahead ⟨⟩
    exact hpath.noted rfl
  · exact h.journal.cons (.of_due rfl hpath.due (by rintro a answer ⟨⟩) (by rintro a ⟨⟩))
  · show ((s.world.setTask p (.sending f)).tasks p).Own p
    rw [World.setTask_tasks,← hf]
    exact hown
  · show ((s.world.setTask p (.sending f)).tasks p).Drives n
    rw [World.setTask_tasks]
    exact ⟨f,rfl,hn,by rw [htodo]; exact Option.some_ne_none _⟩
  · intro _ m hm
    rcases List.mem_cons.mp hm with hm | hm
    · cases hm
    · exact h.uncounted hearly m hm

theorem Walked.next (h : Walked ctx p s) (chain : ChainKind) (now : Nat) :
    Walked ctx p (s.next chain p now) := by
  unfold Recovery.next
  split
  · next hstage => exact h.goto (by rw [hstage]; rfl) rfl (by rw [hstage]; exact fun _ ha => ha) trivial
  · next n group todo hstage =>
    have hearly : s.stage.early = true := by
      rw [hstage]
      rfl
    split
    · next hstop =>
      refine h.goto hearly rfl (by rintro ahead ⟨⟩) ?_
      show (s.shutdown || s.stopSending) = true
      rw [hstop,Bool.or_true]
    · split
      · next included hinc => exact h.goto hearly rfl (by rw [hstage]; exact fun _ ha => ha) hinc
      · exact h.rebroadcast hearly (by rw [hstage]; rfl) chain
  · exact h

/-- The included attempt is looked up. -/
theorem Walked.receipt (h : Walked ctx p s) (answer : Option (Option Receipt)) :
    Walked ctx p (s.receipt ctx answer) := by
  unfold Recovery.receipt
  split
  · next included n group todo hstage =>
    have hs := h.stands
    rw [hstage] at hs
    have hinc : group.find? (fun a => a.status = .included) = some included := hs
    have hpath := h.path _ (by rw [hstage]; rfl : s.stage.ahead = some ((n,group) :: todo))
    obtain ⟨-,hgroup⟩ := nonceMap_group hpath.entry
    obtain ⟨hmem,hnonce⟩ := hgroup included (List.mem_of_find?_eq_some hinc)
    have hstatus : included.status = .included := by simpa using List.find?_some hinc
    have hjournal : Journal ctx s.live (.looked included answer :: s.log) := by
      refine h.journal.cons ⟨?_,?_,by rintro a ⟨⟩⟩
      · rintro m ⟨⟩
        rw [hnonce]
        exact hpath.due
      · rintro a ans ⟨⟩
        exact ⟨hmem,hstatus⟩
    have huncounted : ∀ m, .counted m ∉ .looked included answer :: s.log := by
      intro m hm
      rcases List.mem_cons.mp hm with hm | hm
      · cases hm
      · exact h.uncounted (by rw [hstage]; rfl) m hm
    dsimp only
    split
    · exact ⟨h.live,by rintro ahead ⟨⟩,hjournal,rfl,by rintro ⟨⟩,by rintro ⟨⟩⟩
    · next r =>
      split
      · next huse =>
        refine ⟨h.live,?_,hjournal,trivial,fun _ => huncounted,by rintro ⟨⟩⟩
        rintro ahead ⟨⟩
        refine hpath.pass ?_
        rw [RecoverNote.resolves,if_pos huse,hnonce]
      · next huse =>
        refine ⟨h.live,?_,hjournal,⟨hinc,r,rfl,Bool.eq_false_iff.mpr huse⟩,fun _ => huncounted,
          by rintro ⟨⟩⟩
        rintro ahead ⟨⟩
        refine hpath.noted ?_
        rw [RecoverNote.resolves,if_neg huse]
  · exact h

/-- A vanished inclusion is undone. -/
theorem Walked.demote (h : Walked ctx p s) (chain : ChainKind) (call : Call) (now : Nat) :
    Walked ctx p (s.demote chain p call now) := by
  unfold Recovery.demote
  split
  · next included n group todo hstage =>
    have hs := h.stands
    rw [hstage] at hs
    obtain ⟨hinc,hlooked⟩ := hs
    have hpath := h.path _ (by rw [hstage]; rfl : s.stage.ahead = some ((n,group) :: todo))
    obtain ⟨-,hgroup⟩ := nonceMap_group hpath.entry
    obtain ⟨-,hnonce⟩ := hgroup included (List.mem_of_find?_eq_some hinc)
    -- the loop's head with the same nonce ahead, once the demotion is noted
    have hnoted : ∀ w : World, Walked ctx p
        (((s.setWorld w).note (.demoted included)).goto (.walking ((n,group) :: todo))) := by
      intro w
      refine ⟨h.live,?_,?_,trivial,?_,by rintro ⟨⟩⟩
      · rintro ahead ⟨⟩
        exact hpath.noted rfl
      · refine h.journal.cons ⟨?_,by rintro a answer ⟨⟩,?_⟩
        · rintro m ⟨⟩
          rw [hnonce]
          exact hpath.due
        · rintro a ⟨⟩
          exact hlooked
      · intro _ m hm
        rcases List.mem_cons.mp hm with hm | hm
        · cases hm
        · exact h.uncounted (by rw [hstage]; rfl) m hm
    dsimp only
    split
    · exact (hnoted _).rebroadcast rfl rfl chain
    · exact (hnoted _).retry
  · exact h

/-- One input of the driver. -/
theorem Walked.drive (h : Walked ctx p s) (chains : ChainId → ChainKind) (i : Input) (now : Nat) :
    Walked ctx p (s.drive chains p i now) := by
  unfold Recovery.drive
  split
  · next n group todo hstage =>
    have hs := h.stands
    rw [hstage] at hs
    obtain ⟨hown,hdrives⟩ := hs
    have hpath := h.path _ (by rw [hstage]; rfl : s.stage.ahead = some ((n,group) :: todo))
    have hturn := World.turn_turned chains i hown.honest
    have hown' := hturn.own hown
    -- the broadcast, if there is one, is of the nonce that is due
    have hlog : Journal ctx s.live ((s.world.tasks p).broadcasts i ++ s.log) ∧
        Path ctx s.live ((s.world.tasks p).broadcasts i ++ s.log) ((n,group) :: todo) ∧
        ∀ m, .counted m ∉ (s.world.tasks p).broadcasts i ++ s.log := by
      have hun := h.uncounted (by rw [hstage]; rfl)
      rcases Activity.broadcasts_nonce hown hdrives i with heq | ⟨a,heq,hnonce⟩
      · rw [heq]
        exact ⟨h.journal,hpath,hun⟩
      · rw [heq]
        refine ⟨h.journal.cons (.of_due (congrArg some hnonce) hpath.due
          (by rintro b answer ⟨⟩) (by rintro b ⟨⟩)),hpath.noted rfl,?_⟩
        intro m hm
        rcases List.mem_cons.mp hm with hm | hm
        · cases hm
        · exact hun m hm
    obtain ⟨hjournal,hpath,huncounted⟩ := hlog
    dsimp only
    split
    · next hnone =>
      obtain ⟨hdown,hpaused,hrec⟩ := Input.outcome_none hnone
      refine ⟨h.live,?_,hjournal,?_,fun _ => huncounted,?_⟩
      · show ∀ ahead, s.stage.ahead = some ahead → _
        rw [hstage]
        rintro ahead ⟨⟩
        exact hpath
      · show s.stage.Stands ctx p _ ((s.world.turn chains p i).tasks p) s.pair _
        rw [hstage]
        refine ⟨hown',?_⟩
        rcases hturn.drives hdrives with hd | hd | hd | ⟨todo,hd⟩
        · exact hd
        · exact absurd hd hdown
        · exact absurd hd hpaused
        · exact absurd hd (hrec todo)
      · show s.stage.placed = true → _
        rw [hstage]
        rintro ⟨⟩
    · next o _ =>
      have hdriven : Journal ctx s.live
          (.driven n o :: ((s.world.tasks p).broadcasts i ++ s.log)) :=
        hjournal.cons (.of_due rfl hpath.due (by rintro a answer ⟨⟩) (by rintro a ⟨⟩))
      have huncounted' : ∀ m, .counted m ∉
          RecoverNote.driven n o :: ((s.world.tasks p).broadcasts i ++ s.log) := by
        intro m hm
        rcases List.mem_cons.mp hm with hm | hm
        · cases hm
        · exact huncounted m hm
      cases o with
      | mined =>
        refine ⟨h.live,?_,hdriven,trivial,fun _ => huncounted',by rintro ⟨⟩⟩
        rintro ahead ⟨⟩
        exact hpath.pass rfl
      | voided =>
        refine ⟨h.live,?_,hdriven,trivial,fun _ => huncounted',by rintro ⟨⟩⟩
        rintro ahead ⟨⟩
        exact hpath.pass rfl
      | unresolved =>
        exact ⟨h.live,by rintro ahead ⟨⟩,hdriven,⟨_,rfl,rfl⟩,by rintro ⟨⟩,by rintro ⟨⟩⟩
      | needsRecovery =>
        exact ⟨h.live,by rintro ahead ⟨⟩,hdriven,⟨_,rfl,rfl⟩,by rintro ⟨⟩,by rintro ⟨⟩⟩
      | aborted =>
        exact ⟨h.live,by rintro ahead ⟨⟩,hdriven,Bool.or_true s.shutdown,by rintro ⟨⟩,by rintro ⟨⟩⟩
  · exact h

theorem Walked.ensure (h : Walked ctx p s) (call : Call) : Walked ctx p (s.ensure p call) := by
  unfold Recovery.ensure
  split
  · next hstage =>
    have hpath := h.path [] (by rw [hstage]; rfl)
    have huncounted := h.uncounted (by rw [hstage]; rfl)
    dsimp only
    split
    · split
      · refine ⟨h.live,?_,h.journal,trivial,fun _ => huncounted,by rintro ⟨⟩⟩
        rintro ahead ⟨⟩
        exact hpath
      · refine ⟨h.live,?_,h.journal,trivial,by rintro ⟨⟩,fun _ n hn => absurd hn (huncounted n)⟩
        rintro ahead ⟨⟩
        exact hpath
    · exact ⟨h.live,by rintro ahead ⟨⟩,h.journal,rfl,by rintro ⟨⟩,by rintro ⟨⟩⟩
  · exact h

/-- `next_nonce` is placed past the nonce that was read. -/
theorem Walked.count (h : Walked ctx p s) (chainNonce : Option Nat) :
    Walked ctx p (s.count p chainNonce) := by
  unfold Recovery.count
  split
  · next hwm hstage =>
    have hpath := h.path [] (by rw [hstage]; rfl)
    have huncounted := h.uncounted (by rw [hstage]; rfl)
    split
    · next n =>
      refine ⟨h.live,?_,?_,trivial,by rintro ⟨⟩,?_⟩
      · rintro ahead ⟨⟩
        exact hpath.noted rfl
      · exact h.journal.cons ⟨by rintro m ⟨⟩,by rintro a answer ⟨⟩,by rintro a ⟨⟩⟩
      · intro _ m hm
        show m ≤ Function.update s.world.nextNonce p (max n (hwm.elim 0 (· + 1))) p
        rw [Function.update_self]
        rcases List.mem_cons.mp hm with hm | hm
        · cases hm
          exact le_max_left _ _
        · exact absurd hm (huncounted m)
    · exact h.retry
  · exact h

/-- A pause is lifted, or was for another reason, or gives way to the operator's. -/
theorem PairState.resumeIf_reason (q : PairState) (now : Nat) (reason : PauseReason) {x : PauseSlot}
    (hx : (q.resumeIf now reason).pause = some x) :
    x.reason ≠ reason ∧ q.pause = some x ∨ x.reason = .manual := by
  unfold PairState.resumeIf at hx
  split at hx
  · next hc =>
    refine .inl ⟨?_,hx⟩
    rintro rfl
    simp [PairState.changes,PairState.pauseReason,hx] at hc
  · dsimp only at hx
    split at hx
    · cases hx
      exact .inr rfl
    · cases hx

theorem PairState.Cleared.resumeIf {q : PairState} (h : q.Cleared) (now : Nat)
    (reason : PauseReason) : (q.resumeIf now reason).Cleared := by
  intro x hx
  rcases q.resumeIf_reason now reason hx with ⟨-,hx⟩ | hm
  · exact h x hx
  · rw [hm]
    exact ⟨by decide,by decide,by decide⟩

theorem PairState.cleared_resumed (q : PairState) (now : Nat) :
    (((q.resumeIf now .booting).resumeIf now .nonceDrift).resumeIf now .reorg).Cleared := by
  intro x hx
  have hmanual : x.reason = .manual →
      x.reason ≠ .booting ∧ x.reason ≠ .nonceDrift ∧ x.reason ≠ .reorg := by
    intro hm
    rw [hm]
    exact ⟨by decide,by decide,by decide⟩
  rcases PairState.resumeIf_reason _ now .reorg hx with ⟨hreorg,hx⟩ | hm
  · rcases PairState.resumeIf_reason _ now .nonceDrift hx with ⟨hdrift,hx⟩ | hm
    · rcases PairState.resumeIf_reason _ now .booting hx with ⟨hboot,-⟩ | hm
      · exact ⟨hboot,hdrift,hreorg⟩
      · exact hmanual hm
    · exact hmanual hm
  · exact hmanual hm

theorem Walked.weigh (h : Walked ctx p s) (answered down : Bool) (now : Nat) :
    Walked ctx p (s.weigh answered down now) := by
  unfold Recovery.weigh
  split
  · next hstage =>
    have hpath := h.path [] (by rw [hstage]; rfl)
    have hcounted := h.counted (by rw [hstage]; rfl)
    split
    · refine ⟨h.live,?_,h.journal,?_,by rintro ⟨⟩,fun _ => hcounted⟩
      · rintro ahead ⟨⟩
        exact hpath
      · have hq := s.pair.cleared_resumed now
        show PairState.Cleared (if down then _ else _)
        split
        · exact hq
        · exact hq.resumeIf now .chainOutage
    · exact h.retry
  · exact h

theorem Walked.step (h : Walked ctx p s) {e : RecoverEvent}
    (he : (recovery chains ctx p).allowed s e) : Walked ctx p (s.step chains ctx p e) := by
  obtain ⟨hover,hpos⟩ := he
  cases e with
  | other e => exact h.other hpos.2
  | pair q => exact h.flags hover hpos s.shutdown s.stopSending
  | shutdown => exact h.flags hover (fun hq => hq) true s.stopSending
  | stopSending => exact h.flags hover (fun hq => hq) s.shutdown true
  | load answered => exact h.load hpos
  | abandon =>
    simp only [Recovery.step]
    split
    · next hstage =>
      refine h.goto (by rw [hstage]; rfl) rfl (by rintro ahead ⟨⟩) ?_
      show (s.shutdown || s.stopSending) = true
      rw [show s.shutdown = true from hpos,Bool.true_or]
    · exact h
  | next now => exact h.next _ now
  | receipt answer => exact h.receipt answer
  | demote call now => exact h.demote _ call now
  | drive i now => exact h.drive chains i now
  | ensure call => exact h.ensure call
  | count chainNonce => exact h.count chainNonce
  | weigh answered down now => exact h.weigh answered down now
  | wake =>
    simp only [Recovery.step]
    split
    · next hstage =>
      have hs := h.stands
      rw [hstage] at hs
      exact ⟨h.live,by rintro ahead ⟨⟩,h.journal,hs,by rintro ⟨⟩,by rintro ⟨⟩⟩
    · exact h

theorem Walked.reaches {h : History} {pair : PairState} {now : Nat}
    (hr : (recovery chains ctx p).Reaches (.start h pair now) s) : Walked ctx p s :=
  hr.invariant (.start h pair now) fun _ _ hs he => hs.step he

end Steps

/-! ## The mark and `next_nonce` -/

/-- The mark is as it was read, and `next_nonce` is past everything bound. -/
structure Placed (p : PairKey) (s : Recovery) : Prop where
  marked : Marked s.history
  read : ∀ hwm, s.stage = .counting hwm → s.world.store.nonceHwm p = hwm
  above : s.stage.placed = true → ∀ n, p.slot n ∈ s.history.held → n < s.world.nextNonce p

section Marks

variable {chains : ChainId → ChainKind} {ctx : ChainCtx} {p : PairKey} {s : Recovery} {h : History}

/-- Nobody else binds or releases a nonce of `p`. -/
theorem Marked.elsewhere (hm : Marked h) (chains : ChainId → ChainKind) {e : Event} (hpos : e.Possible h.world)
    (he : e.Elsewhere p) :
    (h.step chains e).world.store.marks (h.step chains e).held p = h.world.store.marks h.held p := by
  cases e with
  | op o =>
    have hpairs := Op.unfenced_pairs (Op.Possible.unfenced hpos) h.world.store
    exact Numbering.ext rfl rfl (Store.nonceHwm_of_pairs hpairs p)
  | mine k m => rfl
  | restart => cases he
  | task q i =>
    have hturn := World.turn_turned chains i (hm.own q).honest
    exact (hturn.advances hm.covered (hm.own q) (hm.launched q)).others p fun hq => he hq.symm

theorem Marked.setTask (hm : Marked h) {t : Activity} (ho : t.Own p) (hl : t.launched = false) :
    Marked { h with world := h.world.setTask p t } := by
  refine ⟨hm.covered,?_,?_⟩
  · intro q hq
    have hq : ((h.world.setTask p t).tasks q).launched = true := hq
    rw [World.tasks_setTask] at hq
    split at hq
    · rw [hl] at hq
      cases hq
    · exact hm.launched q hq
  · intro q
    show ((h.world.setTask p t).tasks q).Own q
    rw [World.tasks_setTask]
    split
    · next hq => exact hq ▸ ho
    · exact hm.own q

theorem Marked.setStore (hm : Marked h) {st : Store} (hc : st.Covered h.held)
    (hrows : ∀ q, h.world.store.HasPair q → st.HasPair q) :
    Marked { h with world := { h.world with store := st } } :=
  ⟨hc,fun q hq => hrows q (hm.launched q hq),hm.own⟩

/-- Away from the end only the marks matter. -/
theorem Placed.of_marked (hm : Marked s.history) (hread : ∀ hwm, s.stage ≠ .counting hwm)
    (habove : s.stage.placed = false) : Placed p s := by
  refine ⟨hm,fun hwm hs => absurd hs (hread hwm),?_⟩
  intro hp
  rw [habove] at hp
  cases hp

theorem Placed.other (hp : Placed p s) {e : Event} (hpos : e.Possible s.world)
    (he : e.Elsewhere p) : Placed p { s with history := s.history.step chains e } := by
  have hmarks := hp.marked.elsewhere chains hpos he
  refine ⟨hp.marked.step hpos,?_,?_⟩
  · intro hwm hs
    exact (congrArg Numbering.mark hmarks).trans (hp.read hwm hs)
  · intro hs n hn
    have hn : n ∈ (s.history.world.store.marks s.history.held p).taken := by
      rw [← congrArg Numbering.taken hmarks]
      exact hn
    show n < (s.history.step chains e).world.nextNonce p
    rw [(s.history.step_elsewhere chains he).2]
    exact hp.above hs n hn

theorem Placed.rebroadcast (hm : Marked s.history) {group : List Attempt} (chain : ChainKind)
    (hg : ∃ n, ∀ a ∈ group, a.slot = p.slot n) (now n : Nat) (todo : List (Nat × List Attempt)) :
    Placed p (s.rebroadcast chain p now n group todo) := by
  have hown : (resume chain group []).Own p := .resume hg (by rintro g ⟨⟩)
  have hl := resume_launched chain group []
  unfold Recovery.rebroadcast
  dsimp only
  split
  · next f hf =>
    rw [hf] at hown hl
    exact .of_marked (hm.setTask hown hl) (by rintro hwm ⟨⟩) rfl
  · exact .of_marked hm (by rintro hwm ⟨⟩) rfl

/-- The attempts of the nonce ahead are at one nonce of the pair. -/
theorem Walked.group (hw : Walked ctx p s) {n : Nat} {group : List Attempt}
    {todo : List (Nat × List Attempt)} (ha : s.stage.ahead = some ((n,group) :: todo)) :
    ∃ n, ∀ a ∈ group, a.slot = p.slot n := by
  obtain ⟨-,hgroup⟩ := nonceMap_group (hw.path _ ha).entry
  refine ⟨n,fun a ha => ?_⟩
  rw [← (hgroup a ha).2]
  exact (hw.live a (hgroup a ha).1).2

theorem Placed.next (hp : Placed p s) (hw : Walked ctx p s) (chain : ChainKind) (now : Nat) :
    Placed p (s.next chain p now) := by
  unfold Recovery.next
  split
  · exact .of_marked hp.marked (by rintro hwm ⟨⟩) rfl
  · next n group todo hstage =>
    split
    · exact .of_marked hp.marked (by rintro hwm ⟨⟩) rfl
    · split
      · exact .of_marked hp.marked (by rintro hwm ⟨⟩) rfl
      · exact .rebroadcast hp.marked chain (hw.group (by rw [hstage]; rfl)) now n todo
  · exact hp

theorem Placed.receipt (hp : Placed p s) (answer : Option (Option Receipt)) :
    Placed p (s.receipt ctx answer) := by
  unfold Recovery.receipt
  split
  · dsimp only
    split
    · exact .of_marked hp.marked (by rintro hwm ⟨⟩) rfl
    · split
      · exact .of_marked hp.marked (by rintro hwm ⟨⟩) rfl
      · exact .of_marked hp.marked (by rintro hwm ⟨⟩) rfl
  · exact hp

theorem Placed.demote (hp : Placed p s) (hw : Walked ctx p s) (chain : ChainKind) (call : Call)
    (now : Nat) : Placed p (s.demote chain p call now) := by
  unfold Recovery.demote
  split
  · next included n group todo hstage =>
    have hm : Marked { s.history with world := { s.world with
        store := (call.answer s.world.store (.ok (demoteInclusion s.world.store included).2)).2 } } := by
      rcases call.answer_store s.world.store (.ok (demoteInclusion s.world.store included).2) with
        heq | ⟨st,hst,heq⟩
      · rw [heq]
        exact hp.marked
      · cases hst
        rw [heq]
        have hpairs := demoteInclusion_pairs s.world.store included
        exact hp.marked.setStore
          (hp.marked.covered.of_kept (demoteInclusion_slots s.world.store included) hpairs)
          fun q hq => hq.of_pairs hpairs
    dsimp only
    split
    · exact .rebroadcast hm chain (hw.group (by rw [hstage]; rfl)) now n todo
    · exact .of_marked hm (by rintro hwm ⟨⟩) rfl
  · exact hp

theorem Placed.drive (hp : Placed p s) (chains : ChainId → ChainKind) (i : Input) (now : Nat) :
    Placed p (s.drive chains p i now) := by
  unfold Recovery.drive
  split
  · next n group todo hstage =>
    have hm : Marked (s.history.step chains (.task p i)) := hp.marked.turn chains p i
    dsimp only
    split
    · refine .of_marked hm ?_ ?_
      · intro hwm hs
        cases hstage.symm.trans hs
      · show s.stage.placed = false
        rw [hstage]
        rfl
    · next o _ =>
      cases o with
      | mined => exact .of_marked hm (by rintro hwm ⟨⟩) rfl
      | voided => exact .of_marked hm (by rintro hwm ⟨⟩) rfl
      | unresolved => exact .of_marked hm (by rintro hwm ⟨⟩) rfl
      | needsRecovery => exact .of_marked hm (by rintro hwm ⟨⟩) rfl
      | aborted => exact .of_marked hm (by rintro hwm ⟨⟩) rfl
  · exact hp

/-- Past the mark is past everything that is bound. -/
theorem Placed.place (hm : Marked s.history) {hwm : Option Nat}
    (hr : s.world.store.nonceHwm p = hwm) (n : Nat) : Placed p (s.place p n hwm) := by
  refine ⟨⟨hm.covered,hm.launched,hm.own⟩,by rintro hwm' ⟨⟩,?_⟩
  intro _ m hmem
  have hlt : m < (s.world.store.marks s.history.held p).after := hm.covered.below p m hmem
  show m < Function.update s.world.nextNonce p (max n (hwm.elim 0 (· + 1))) p
  rw [Function.update_self,← hr]
  exact hlt.trans_le (le_max_right _ _)

theorem Placed.ensure (hp : Placed p s) (call : Call) : Placed p (s.ensure p call) := by
  unfold Recovery.ensure
  split
  · have hm : Marked { s.history with world := { s.world with
        store := (call.answer s.world.store (.ok (ensurePair s.world.store p))).2 } } := by
      rcases call.answer_store s.world.store (.ok (ensurePair s.world.store p)) with
        heq | ⟨st,hst,heq⟩
      · rw [heq]
        exact hp.marked
      · cases hst
        rw [heq]
        exact hp.marked.setStore (hp.marked.covered.ensurePair p) fun q hq => hq.ensurePair p
    dsimp only
    split
    · split
      · exact ⟨hm,by rintro hwm ⟨⟩; rfl,by rintro ⟨⟩⟩
      · exact .place hm rfl 0
    · exact .of_marked hm (by rintro hwm ⟨⟩) rfl
  · exact hp

theorem Placed.count (hp : Placed p s) (chainNonce : Option Nat) : Placed p (s.count p chainNonce) := by
  unfold Recovery.count
  split
  · next hwm hstage =>
    split
    · next n => exact .place (s := s.note (.counted n)) hp.marked (hp.read hwm hstage) n
    · exact .of_marked hp.marked (by rintro hwm ⟨⟩) rfl
  · exact hp

theorem Placed.step (hp : Placed p s) (hw : Walked ctx p s) {e : RecoverEvent}
    (he : (recovery chains ctx p).allowed s e) : Placed p (s.step chains ctx p e) := by
  obtain ⟨-,hpos⟩ := he
  cases e with
  | other e => exact hp.other hpos.1 hpos.2
  | pair q => exact ⟨hp.marked,hp.read,hp.above⟩
  | shutdown => exact ⟨hp.marked,hp.read,hp.above⟩
  | stopSending => exact ⟨hp.marked,hp.read,hp.above⟩
  | load answered =>
    simp only [Recovery.step,Recovery.load]
    split
    · split
      · split
        · exact .of_marked hp.marked (by rintro hwm ⟨⟩) rfl
        · exact hp
      · exact hp
    · exact hp
  | abandon =>
    simp only [Recovery.step]
    split
    · exact .of_marked hp.marked (by rintro hwm ⟨⟩) rfl
    · exact hp
  | next now => exact hp.next hw _ now
  | receipt answer => exact hp.receipt answer
  | demote call now => exact hp.demote hw _ call now
  | drive i now => exact hp.drive chains i now
  | ensure call => exact hp.ensure call
  | count chainNonce => exact hp.count chainNonce
  | weigh answered down now =>
    simp only [Recovery.step,Recovery.weigh]
    split
    · next hstage =>
      split
      · exact ⟨hp.marked,by rintro hwm ⟨⟩,fun _ => hp.above (by rw [hstage]; rfl)⟩
      · exact .of_marked hp.marked (by rintro hwm ⟨⟩) rfl
    · exact hp
  | wake =>
    simp only [Recovery.step]
    split
    · exact .of_marked hp.marked (by rintro hwm ⟨⟩) rfl
    · exact hp

theorem Placed.reaches {pair : PairState} {now : Nat} (hm : Marked h)
    (hr : (recovery chains ctx p).Reaches (.start h pair now) s) : Placed p s := by
  have hboth := hr.invariant (I := fun s => Walked ctx p s ∧ Placed p s)
    ⟨.start h pair now,.of_marked hm (by rintro hwm ⟨⟩) rfl⟩
    fun _ _ hs he => ⟨hs.1.step he,hs.2.step hs.1 he⟩
  exact hboth.2

end Marks

/-! ## Total and ordered -/

/-- What holds of `recover_pair` at every point of it: at its end every live nonce was seen
included on the chain or was settled by the driver, and the pauses it answers to are gone;
nonces are done with in ascending order, each due when it is worked on; an inclusion is
demoted only after a lookup that answered and showed none; `next_nonce` is not below the
chain's nonce that was read; and it returns early with a request pending, for an operator,
or because it was told to stop. -/
structure Recovered (ctx : ChainCtx) (p : PairKey) (s : Recovery) : Prop where
  complete : s.stage = .finished → ∀ a ∈ s.live,
    (∃ b ∈ s.live, b.nonce = a.nonce ∧ b.status = .included ∧
      ∃ answer, .looked b answer ∈ s.log ∧ usable ctx b answer = true) ∨
    .driven a.nonce .mined ∈ s.log ∨ .driven a.nonce .voided ∈ s.log
  cleared : s.stage = .finished → s.pair.Cleared
  ascending : (resolved ctx s.log).Pairwise (· > ·)
  ordered : ∀ note earlier, note :: earlier <:+ s.log → ∀ n ∈ note.nonce,
    Due ctx s.live earlier n
  demoted : ∀ a earlier, .demoted a :: earlier <:+ s.log →
    ∃ r, earlier.head? = some (.looked a (some r)) ∧ usable ctx a (some r) = false
  counted : s.stage.placed = true → ∀ n, .counted n ∈ s.log → n ≤ s.world.nextNonce p
  retried : s.stage = .returned .retry → s.pair.recoveryRequested = true
  operator : s.stage = .returned .operator →
    ∃ x, s.pair.pause = some x ∧ x.recoveryStep = .needsOperator
  stopped : s.stage = .returned .stopped → s.shutdown = true ∨ s.stopSending = true

section Total

variable {chains : ChainId → ChainKind} {ctx : ChainCtx} {p : PairKey} {s : Recovery}

/-- A nonce is done with by a usable receipt or by the driver. -/
theorem resolved_cases {log : List RecoverNote} {n : Nat} (h : n ∈ resolved ctx log) :
    (∃ b answer, b.nonce = n ∧ .looked b answer ∈ log ∧ usable ctx b answer = true) ∨
      .driven n .mined ∈ log ∨ .driven n .voided ∈ log := by
  obtain ⟨note,hmem,hres⟩ := List.mem_filterMap.mp h
  cases note with
  | looked b answer =>
    simp only [RecoverNote.resolves] at hres
    split at hres
    · next huse =>
      cases hres
      exact .inl ⟨b,answer,rfl,hmem,huse⟩
    · cases hres
  | driven m o =>
    simp only [RecoverNote.resolves] at hres
    split at hres
    · next ho =>
      cases hres
      rcases ho with rfl | rfl
      · exact .inr (.inl hmem)
      · exact .inr (.inr hmem)
    · cases hres
  | _ => cases hres

theorem Walked.recovered (h : Walked ctx p s) : Recovered ctx p s := by
  have hs := h.stands
  refine ⟨?_,?_,h.journal.ascending,?_,?_,h.counted,?_,?_,?_⟩
  · intro hstage a ha
    have hpath := h.path [] (by rw [hstage]; rfl)
    refine (resolved_cases (hpath.complete ha)).imp_left ?_
    rintro ⟨b,answer,hn,hmem,huse⟩
    obtain ⟨later,earlier,hsplit⟩ := List.append_of_mem hmem
    have hproper := h.journal (.looked b answer) earlier ⟨later,hsplit.symm⟩
    obtain ⟨hlive,hstatus⟩ := hproper.looked b answer rfl
    exact ⟨b,hlive,hn,hstatus,answer,hmem,huse⟩
  · intro hstage
    rw [hstage] at hs
    exact hs
  · exact fun note earlier hsuf => (h.journal note earlier hsuf).due
  · exact fun a earlier hsuf => (h.journal _ earlier hsuf).demoted a rfl
  · intro hstage
    rw [hstage] at hs
    exact hs
  · intro hstage
    rw [hstage] at hs
    exact hs
  · intro hstage
    rw [hstage] at hs
    exact Bool.or_eq_true_iff.mp hs

end Total

/-- `recover_pair` after any history of the engine, under every sequence of answers. -/
theorem recovery_total_ordered {chains : ChainId → ChainKind} {ctx : ChainCtx} {p : PairKey}
    {h : History} {pair : PairState} {now : Nat} {s : Recovery}
    (hr : (recovery chains ctx p).Reaches (.start h pair now) s) :
    Recovered ctx p s ∧ ((recorded chains).Reaches .init h → s.stage.placed = true →
      ∀ n, p.slot n ∈ s.history.held → n < s.world.nextNonce p) := by
  refine ⟨(Walked.reaches hr).recovered,?_⟩
  intro hh hplaced
  exact (Placed.reaches (Marked.reaches hh) hr).above hplaced

/-! ## A vanished inclusion -/

instance (p : PairKey) : DecidablePred (Event.Elsewhere p)
  | .task q _ => inferInstanceAs (Decidable (q ≠ p))
  | .restart => .isFalse id
  | .op _ | .mine _ _ => .isTrue trivial

instance (p : PairKey) (s : Recovery) : DecidablePred (RecoverEvent.Possible p s)
  | .other e => inferInstanceAs (Decidable (e.Possible s.world ∧ e.Elsewhere p))
  | .pair q => inferInstanceAs
      (Decidable (s.pair.recoveryRequested = true → q.recoveryRequested = true))
  | .load _ => inferInstanceAs
      (Decidable (∀ live ∈ (loadLiveAttemptsFor s.world.store p.chainId p.signer).toOption,
        ∀ a ∈ live, a.rawTx ≠ []))
  | .abandon => inferInstanceAs (Decidable (s.shutdown = true))
  | .drive .stop _ => inferInstanceAs (Decidable (s.stopSending = true))
  | .drive (.execute _ _) _ | .drive (.round _) _ | .drive .deliver _ | .drive (.arrive _ _) _
  | .drive (.answer _) _ | .drive (.lookBack _) _ | .drive (.poll _) _ | .drive (.escalate _) _
  | .drive (.sign _) _ | .drive (.void _ _) _ | .drive .recover _ | .drive (.recoverNext _) _
  | .drive (.recoverDone _) _ | .drive .resume _ | .shutdown | .stopSending | .next _
  | .receipt _ | .demote _ _ | .ensure _ | .count _ | .weigh _ _ _ | .wake => .isTrue trivial

instance (chains : ChainId → ChainKind) (ctx : ChainCtx) (p : PairKey) (s : Recovery)
    (e : RecoverEvent) : Decidable ((recovery chains ctx p).allowed s e) :=
  inferInstanceAs (Decidable (s.stage.over = false ∧ e.Possible p s))

instance (chains : ChainId → ChainKind) (h : History) (e : Event) :
    Decidable ((recorded chains).allowed h e) :=
  inferInstanceAs (Decidable (e.Possible h.world))

/-- Job 1 is included at nonce 0 and job 2 is bound at nonce 1 when the process dies. -/
def crashedRun : List Event :=
  let p := Sample.pair
  Sample.boot ++ [.op (.insertJob 1 Sample.request),.op (.insertJob 2 Sample.request),
    .task p (.execute (.job 1) (.ok (Sample.signature 3 3))),.task p Sample.round,.task p .deliver,
    .mine (p.slot 0) (.ours 3),.task p (.answer .accepted),.task p (.poll (some 3)),
    .op (.settleInclusion (Sample.attempt 3 0 .job (.job 1)) (Sample.inclusion 3 10 100) false),
    .task p (.execute (.job 2) (.ok (Sample.signature 4 4))),.task p Sample.round,.restart]

def crashed : History := crashedRun.foldl (recorded Sample.chains).step .init

/-- What the next process loads. -/
def crashedLive : List Attempt :=
  [{ Sample.attempt 3 0 .job (.job 1) with
      status := .included, blockNumber := some 10, blockHash := some 100 },
    Sample.attempt 4 1 .job (.job 2)]

/-- Its recovery, once that is loaded. -/
def crashedLoaded : Recovery :=
  { Recovery.start crashed (.new 0 false) 0 with
    live := crashedLive, stage := .walking (nonceMap crashedLive) }

/-- The inclusion is gone from the chain; both nonces are sent again and mined, the lower one
first. -/
def vanishedRecovery : List RecoverEvent :=
  [.next 0,.receipt (some none),.demote .answered 0,.drive .deliver 0,
    .drive (.answer .accepted) 0,.drive (.poll (some 3)) 0,.next 0,.drive .deliver 0,
    .drive (.answer (.error .alreadyKnown "already known")) 0,.drive (.poll (some 4)) 0,.next 0,
    .ensure .answered,.count (some 2),.weigh true false 0]

/-- Rows that stand in the order of their nonces are loaded as they stand. -/
theorem loadLive_ordered {s : Store} {c : ChainId} {a : Address} {live : List Attempt}
    (h : (s.txAttempts.rows.filter fun r => r.chainId = c ∧ r.signer = a ∧ r.live).Pairwise
      fun r r' => decide (r.nonce ≤ r'.nonce) = true)
    (hl : ((s.txAttempts.rows.filter fun r => r.chainId = c ∧ r.signer = a ∧ r.live).mapM
      attemptRow).toOption = some live) : loadLiveAttemptsFor s c a = .ok live := by
  rw [loadLiveAttemptsFor,Store.liveRows,List.mergeSort_of_pairwise h]
  cases hm : (s.txAttempts.rows.filter fun r => r.chainId = c ∧ r.signer = a ∧ r.live).mapM
      attemptRow with
  | error e =>
    rw [hm] at hl
    cases hl
  | ok rows =>
    rw [hm] at hl
    exact congrArg Except.ok (Option.some.inj hl)

theorem crashed_loads : (recovery Sample.chains Sample.ethereum Sample.pair).Reaches
    (.start crashed (.new 0 false) 0) crashedLoaded := by
  have hload : loadLiveAttemptsFor crashed.world.store Sample.pair.chainId Sample.pair.signer =
      .ok crashedLive := loadLive_ordered (by decide +kernel) (by decide +kernel)
  have hstep : (recovery Sample.chains Sample.ethereum Sample.pair).step
      (.start crashed (.new 0 false) 0) (.load true) = crashedLoaded := by
    show Recovery.load (.start crashed (.new 0 false) 0) Sample.pair true = crashedLoaded
    simp [Recovery.load,Recovery.start,Recovery.world,hload,crashedLoaded]
  rw [← hstep]
  refine (Machine.Reaches.refl _).tail ⟨rfl,?_⟩
  show ∀ live ∈ (loadLiveAttemptsFor crashed.world.store _ _).toOption, ∀ a ∈ live, a.rawTx ≠ []
  rw [hload]
  decide

theorem recovery_total_ordered_vanished :
    ∃ s, (recorded Sample.chains).Reaches .init crashed ∧
      (recovery Sample.chains Sample.ethereum Sample.pair).Reaches
        (.start crashed (.new 0 false) 0) s ∧
      s.live = crashedLive ∧ s.stage = .finished ∧ resolved Sample.ethereum s.log = [1,0] ∧
      s.world.nextNonce Sample.pair = 2 ∧
      s.history.held = [Sample.pair.slot 1,Sample.pair.slot 0] ∧
      Recovered Sample.ethereum Sample.pair s ∧
      ∀ n, Sample.pair.slot n ∈ s.history.held → n < s.world.nextNonce Sample.pair := by
  have hh : (recorded Sample.chains).Runs .init crashedRun := by
    decide +kernel
  have hr : (recovery Sample.chains Sample.ethereum Sample.pair).Runs crashedLoaded
      vanishedRecovery := by
    decide +kernel
  have hreach := crashed_loads.trans hr.reaches
  have htotal := recovery_total_ordered hreach
  exact ⟨_,hh.reaches,hreach,by decide +kernel,by decide +kernel,by decide +kernel,
    by decide +kernel,by decide +kernel,htotal.1,htotal.2 hh.reaches (by decide +kernel)⟩

end GumEngine
