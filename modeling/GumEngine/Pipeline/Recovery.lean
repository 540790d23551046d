import GumEngine.Pipeline.Marks
import GumEngine.Pair.Pause

/-!
# Recovery of a pair

`recover_pair` of `pipeline/recovery.rs`, await by await. It loads the live attempts, walks
their nonces from the lowest up, undoes inclusions that vanished, lets the driver resolve
each nonce and places `next_nonce`. Between two awaits anything else may happen: other pairs
move, the settle queue writes, the flags of the pair change, the process is told to stop.
The queue is flushed before the load; what is handed on to the verifier and to the
counters is in `Confirm`.
-/

namespace GumEngine
open Relational Transition Sequence

/-! ## The model -/

/-- How `resume` ends. -/
inductive ResumeOutcome
  | mined | voided | unresolved | needsRecovery | aborted
deriving DecidableEq, Repr

/-- The outcome, once an input has taken the task off its nonce. -/
def Input.outcome (i : Input) : Activity → Option ResumeOutcome
  | .recovering _ => match i with
    | .void _ _ => some .voided
    | _ => some .mined
  -- no receipt is found for a nonce the chain has used, or there is a gap below the nonce
  | .paused => match i with
    | .lookBack _ => some .unresolved
    | _ => some .needsRecovery
  | .down => some .aborted
  | _ => none

/-- `by_nonce`, a map with ascending keys; the attempts of a nonce in the order loaded. -/
def nonceMap (live : List Attempt) : List (Nat × List Attempt) :=
  ((live.map (·.nonce)).dedup.insertionSort (· ≤ ·)).map fun n => (n,live.filter fun a => a.nonce = n)

/-- Why `recover_pair` returned before its end. -/
inductive EarlyReturn
  | retry | operator | stopped
deriving DecidableEq, Repr

/-- Where `recover_pair` stands: what it awaits, or the head of its loop. -/
inductive RecoverAt
  | loading
  | walking (todo : List (Nat × List Attempt))
  | verifying (included : Attempt) (nonce : Nat) (attempts : List Attempt)
      (todo : List (Nat × List Attempt))
  | demoting (included : Attempt) (nonce : Nat) (attempts : List Attempt)
      (todo : List (Nat × List Attempt))
  | driving (nonce : Nat) (attempts : List Attempt) (todo : List (Nat × List Attempt))
  | ensuring
  | counting (hwm : Option Nat)
  | weighing
  /-- The sleep after a request for another recovery. -/
  | retrying
  | returned (why : EarlyReturn)
  | finished
deriving DecidableEq

/-- What recovery did, newest first. `looked` has the answer to `get_receipt`, which is `none`
for an error; `sent` are the bytes of a broadcast that is delivered or answered. -/
inductive RecoverNote
  | looked (included : Attempt) (answer : Option (Option Receipt))
  | demoted (included : Attempt)
  | resumed (nonce : Nat)
  | sent (attempt : Attempt)
  | driven (nonce : Nat) (outcome : ResumeOutcome)
  | counted (chainNonce : Nat)
deriving DecidableEq

structure Recovery where
  history : History
  pair : PairState
  shutdown : Bool
  stopSending : Bool
  live : List Attempt
  stage : RecoverAt
  log : List RecoverNote

/-- What happens next: other tasks move, or an await of recovery is answered. -/
inductive RecoverEvent
  | other (e : Event)
  | pair (q : PairState)
  | shutdown
  | stopSending
  | load (answered : Bool)
  | abandon
  | next (now : Nat)
  | receipt (answer : Option (Option Receipt))
  | demote (call : Call) (now : Nat)
  | drive (i : Input) (now : Nat)
  | ensure (call : Call)
  | count (chainNonce : Option Nat)
  | weigh (answered down : Bool) (now : Nat)
  | wake

/-- The receipt of an included attempt shows it on the chain. -/
def usable (ctx : ChainCtx) (a : Attempt) (answer : Option (Option Receipt)) : Bool :=
  (answer.join.bind (inclusionFrom ctx a)).isSome

/-- The bytes of a broadcast that shows by its delivery or its answer. -/
def Activity.broadcasts (t : Activity) (i : Input) : List RecoverNote :=
  match t,i with
  | .sending f,.deliver => [.sent f.last]
  | .sending f,.answer _ => [.sent f.last]
  | _,_ => []

namespace Recovery

/-- A pair that was running gets an explicit pause. -/
def start (h : History) (pair : PairState) (now : Nat) : Recovery where
  history := h
  pair := if pair.isPaused then pair else
    pair.setPause now .nonceDrift .reconcilingNonce
      "reconciling nonce and in-flight transactions with the chain"
  shutdown := false
  stopSending := false
  live := []
  stage := .loading
  log := []

def world (s : Recovery) : World := s.history.world

def setWorld (s : Recovery) (w : World) : Recovery :=
  { s with history := { s.history with world := w } }

def note (s : Recovery) (n : RecoverNote) : Recovery := { s with log := n :: s.log }

def goto (s : Recovery) (stage : RecoverAt) : Recovery := { s with stage := stage }

/-- Recovery will be retried. -/
def retry (s : Recovery) : Recovery :=
  { s with pair := s.pair.requestRecovery, stage := .retrying }

/-- The stored bytes of a nonce are sent again; without any the nonce is skipped. -/
def rebroadcast (s : Recovery) (chain : ChainKind) (p : PairKey) (now : Nat) (nonce : Nat)
    (attempts : List Attempt) (todo : List (Nat × List Attempt)) : Recovery :=
  let reason := s.pair.pauseReason.getD .nonceDrift
  let detail := "resolving nonce " ++ toString nonce
  let s := { s with pair := s.pair.setPause now reason .rebroadcasting detail }
  match resume chain attempts [] with
  | .sending f =>
    ((s.setWorld (s.world.setTask p (.sending f))).note (.resumed nonce)).goto
      (.driving nonce attempts todo)
  | _ => s.goto (.walking todo)

/-- The head of the loop. -/
def next (s : Recovery) (chain : ChainKind) (p : PairKey) (now : Nat) : Recovery :=
  match s.stage with
  | .walking [] => s.goto .ensuring
  | .walking ((nonce,attempts) :: todo) =>
    if s.stopSending then s.goto (.returned .stopped) else
    match attempts.find? fun a => a.status = .included with
    | some included => s.goto (.verifying included nonce attempts todo)
    | none => s.rebroadcast chain p now nonce attempts todo
  | _ => s

/-- The receipt of the included attempt, or an error. -/
def receipt (s : Recovery) (ctx : ChainCtx) (answer : Option (Option Receipt)) : Recovery :=
  match s.stage with
  | .verifying included nonce attempts todo =>
    let s := s.note (.looked included answer)
    match answer with
    | none => s.retry
    | some _ =>
      if usable ctx included answer then s.goto (.walking todo)
      else s.goto (.demoting included nonce attempts todo)
  | _ => s

/-- `demote_inclusion` -/
def demote (s : Recovery) (chain : ChainKind) (p : PairKey) (call : Call) (now : Nat) : Recovery :=
  match s.stage with
  | .demoting included nonce attempts todo =>
    let store := s.world.store
    let res := call.answer store (.ok (demoteInclusion store included).2)
    let s := (s.setWorld { s.world with store := res.2 }).note (.demoted included)
    match res.1 with
    | .ok () => s.rebroadcast chain p now nonce attempts todo
    | .error _ => s.retry
  | _ => s

/-- What follows on the outcome of a nonce. A nonce that is used without a receipt was paused
for the operator by the driver. -/
def settle (s : Recovery) (now nonce : Nat) (todo : List (Nat × List Attempt)) :
    ResumeOutcome → Recovery
  | .mined | .voided => s.goto (.walking todo)
  | .unresolved =>
    { s with
      pair := s.pair.setPause now .nonceDrift .needsOperator ("nonce " ++ toString nonce ++
        " is consumed on-chain but none of our transactions for it has a receipt")
      stage := .returned .operator }
  | .needsRecovery =>
    { s with
      pair := s.pair.setPause now .reorg .needsOperator ("chain nonce is below " ++
        toString nonce ++ " although every earlier transaction was settled")
      stage := .returned .operator }
  -- the driver was told to stop, or has lost its lease
  | .aborted => { s with stopSending := true, stage := .returned .stopped }

/-- One move of the driver. -/
def drive (s : Recovery) (chains : ChainId → ChainKind) (p : PairKey) (i : Input) (now : Nat) :
    Recovery :=
  match s.stage with
  | .driving nonce _ todo =>
    let s := { s with
      history := s.history.step chains (.task p i)
      log := (s.world.tasks p).broadcasts i ++ s.log }
    match i.outcome (s.world.tasks p) with
    | none => s
    | some o => (s.note (.driven nonce o)).settle now nonce todo o
  | _ => s

/-- `next_nonce` is past the chain and past all that was bound. -/
def place (s : Recovery) (p : PairKey) (chainNonce : Nat) (hwm : Option Nat) : Recovery :=
  (s.setWorld (s.world.setNextNonce p (max chainNonce (hwm.elim 0 (· + 1))))).goto .weighing

/-- The mark is read. A known signer with nothing in flight needs no call at boot. -/
def ensure (s : Recovery) (p : PairKey) (call : Call) : Recovery :=
  match s.stage with
  | .ensuring =>
    let store := s.world.store
    let res := call.answer store (.ok (ensurePair store p))
    let s := s.setWorld { s.world with store := res.2 }
    match res.1 with
    | .ok () =>
      let hwm := res.2.nonceHwm p
      let booting := s.pair.pauseReason = some .booting
      if hwm.isNone ∨ s.live ≠ [] ∨ ¬ booting then s.goto (.counting hwm) else s.place p 0 hwm
    | .error _ => s.retry
  | _ => s

/-- `get_transaction_count` -/
def count (s : Recovery) (p : PairKey) (chainNonce : Option Nat) : Recovery :=
  match s.stage with
  | .counting hwm =>
    match chainNonce with
    | some n => (s.note (.counted n)).place p n hwm
    | none => s.retry
  | _ => s

/-- `get_balance`, and the end. An outage is over once the monitor agrees. -/
def weigh (s : Recovery) (answered down : Bool) (now : Nat) : Recovery :=
  match s.stage with
  | .weighing =>
    if answered then
      let q := ((s.pair.resumeIf now .booting).resumeIf now .nonceDrift).resumeIf now .reorg
      { s with pair := if down then q else q.resumeIf now .chainOutage, stage := .finished }
    else s.retry
  | _ => s

/-- The load is tried again until the store answers. -/
def load (s : Recovery) (p : PairKey) (answered : Bool) : Recovery :=
  match s.stage with
  | .loading =>
    if answered then
      match loadLiveAttemptsFor s.world.store p.chainId p.signer with
      | .ok live => { s with live := live, stage := .walking (nonceMap live) }
      | .error _ => s
    else s
  | _ => s

section Step

variable (chains : ChainId → ChainKind) (ctx : ChainCtx) (p : PairKey)

def step (s : Recovery) : RecoverEvent → Recovery
  | .other e => { s with history := s.history.step chains e }
  | .pair q => { s with pair := q }
  | .shutdown => { s with shutdown := true }
  | .stopSending => { s with stopSending := true }
  | .load answered => s.load p answered
  | .abandon => if s.stage = .loading then s.goto (.returned .stopped) else s
  | .next now => s.next (chains p.chainId) p now
  | .receipt answer => s.receipt ctx answer
  | .demote call now => s.demote (chains p.chainId) p call now
  | .drive i now => s.drive chains p i now
  | .ensure call => s.ensure p call
  | .count chainNonce => s.count p chainNonce
  | .weigh answered down now => s.weigh answered down now
  | .wake => if s.stage = .retrying then s.goto (.returned .retry) else s

end Step

end Recovery

/-- It is over when it has returned. -/
def RecoverAt.over : RecoverAt → Bool
  | returned _ | finished => true
  | _ => false

/-- Nobody else moves the task of `p`. -/
def Event.Elsewhere (p : PairKey) : Event → Prop
  | .task q _ => q ≠ p
  | .restart => False
  | .op _ | .mine _ _ => True

/-- Only the pair's own worker takes a request back; a task is stopped by the token it waits
for; and live attempts have their bytes. -/
def RecoverEvent.Possible (p : PairKey) (s : Recovery) : RecoverEvent → Prop
  | .other e => e.Possible s.world ∧ e.Elsewhere p
  | .pair q => s.pair.recoveryRequested = true → q.recoveryRequested = true
  | .load _ => ∀ live ∈ (loadLiveAttemptsFor s.world.store p.chainId p.signer).toOption,
      ∀ a ∈ live, a.rawTx ≠ []
  | .abandon => s.shutdown = true
  | .drive .stop _ => s.stopSending = true
  | _ => True

/-- `recover_pair` for `p` under every environment. -/
def recovery (chains : ChainId → ChainKind) (ctx : ChainCtx) (p : PairKey) :
    Machine Recovery RecoverEvent where
  allowed s e := s.stage.over = false ∧ e.Possible p s
  step := Recovery.step chains ctx p

/-! ## The walk -/

/-- The nonce a note is about. -/
def RecoverNote.nonce : RecoverNote → Option Nat
  | looked a _ | demoted a | sent a => some a.nonce
  | resumed n | driven n _ => some n
  | counted _ => none

/-- The nonce that is done with: its inclusion is on the chain, or the driver settled it. -/
def RecoverNote.resolves (ctx : ChainCtx) : RecoverNote → Option Nat
  | looked a answer => if usable ctx a answer then some a.nonce else none
  | driven n o => if o = .mined ∨ o = .voided then some n else none
  | _ => none

def resolved (ctx : ChainCtx) (log : List RecoverNote) : List Nat :=
  log.filterMap (RecoverNote.resolves ctx)

/-- All lower live nonces are done with, and no nonce from `n` on is. -/
structure Due (ctx : ChainCtx) (live : List Attempt) (log : List RecoverNote) (n : Nat) : Prop where
  lower : ∀ a ∈ live, a.nonce < n → a.nonce ∈ resolved ctx log
  higher : ∀ m ∈ resolved ctx log, m < n

/-- A note in its place: its nonce is due, an attempt looked up is included, and one is demoted
only right after its lookup found no usable receipt. -/
structure RecoverNote.Proper (ctx : ChainCtx) (live : List Attempt) (earlier : List RecoverNote)
    (note : RecoverNote) : Prop where
  due : ∀ n ∈ note.nonce, Due ctx live earlier n
  looked : ∀ a answer, note = .looked a answer → a ∈ live ∧ a.status = .included
  demoted : ∀ a, note = .demoted a →
    ∃ r, earlier.head? = some (.looked a (some r)) ∧ usable ctx a (some r) = false

def Journal (ctx : ChainCtx) (live : List Attempt) (log : List RecoverNote) : Prop :=
  ∀ note earlier, note :: earlier <:+ log → note.Proper ctx live earlier

/-- What is done with and what lies ahead make up the map. -/
def Path (ctx : ChainCtx) (live : List Attempt) (log : List RecoverNote)
    (ahead : List (Nat × List Attempt)) : Prop :=
  ∃ passed, nonceMap live = passed ++ ahead ∧ passed.map Prod.fst = (resolved ctx log).reverse

section Walk

variable {ctx : ChainCtx} {live : List Attempt} {log : List RecoverNote} {note : RecoverNote}
  {n : Nat} {g : List Attempt} {todo ahead : List (Nat × List Attempt)} {a : Attempt}

theorem Journal.nil : Journal ctx live [] := by
  intro note earlier h
  cases List.suffix_nil.mp h

theorem Journal.cons (h : Journal ctx live log) (hn : note.Proper ctx live log) :
    Journal ctx live (note :: log) := by
  intro x earlier hx
  rcases List.suffix_cons_iff.mp hx with heq | hx
  · cases heq
    exact hn
  · exact h x earlier hx

theorem nonceMap_keys (live : List Attempt) :
    (nonceMap live).map Prod.fst = (live.map (·.nonce)).dedup.insertionSort (· ≤ ·) := by
  unfold nonceMap
  rw [List.map_map]
  exact List.map_id _

/-- The walk goes from the lowest nonce up. -/
theorem nonceMap_ascending (live : List Attempt) :
    ((nonceMap live).map Prod.fst).Pairwise (· < ·) := by
  rw [nonceMap_keys]
  have hsorted := List.pairwise_insertionSort (· ≤ ·) (live.map (·.nonce)).dedup
  have hnodup : ((live.map (·.nonce)).dedup.insertionSort (· ≤ ·)).Nodup :=
    (List.perm_insertionSort _ _).nodup_iff.mpr (List.nodup_dedup _)
  exact (hsorted.and hnodup).imp fun h => lt_of_le_of_ne h.1 h.2

theorem nonceMap_mem (ha : a ∈ live) : a.nonce ∈ (nonceMap live).map Prod.fst := by
  rw [nonceMap_keys,List.mem_insertionSort,List.mem_dedup]
  exact List.mem_map_of_mem ha

theorem nonceMap_group (h : (n,g) ∈ nonceMap live) :
    (∃ a, a ∈ g) ∧ ∀ a ∈ g, a ∈ live ∧ a.nonce = n := by
  obtain ⟨m,hm,heq⟩ := List.mem_map.mp h
  cases heq
  rw [List.mem_insertionSort,List.mem_dedup] at hm
  obtain ⟨a,ha,rfl⟩ := List.mem_map.mp hm
  refine ⟨⟨a,?_⟩,?_⟩
  · simp [ha]
  · intro b hb
    simpa using hb

theorem Path.entry (h : Path ctx live log ((n,g) :: todo)) : (n,g) ∈ nonceMap live := by
  obtain ⟨passed,hmap,-⟩ := h
  rw [hmap]
  exact List.mem_append_right _ List.mem_cons_self

/-- The nonce at the head of the walk is due. -/
theorem Path.due (h : Path ctx live log ((n,g) :: todo)) : Due ctx live log n := by
  obtain ⟨passed,hmap,hdone⟩ := h
  have hasc := nonceMap_ascending live
  rw [hmap,List.map_append,List.map_cons,List.pairwise_append] at hasc
  obtain ⟨-,htail,hcross⟩ := hasc
  constructor
  · intro a ha hlt
    have hmem := nonceMap_mem ha
    rw [hmap,List.map_append,List.map_cons,List.mem_append] at hmem
    rcases hmem with hmem | hmem
    · rw [hdone] at hmem
      exact List.mem_reverse.mp hmem
    · -- the rest of the walk is not below `n`
      rcases List.mem_cons.mp hmem with heq | hmem
      · exact absurd hlt (heq ▸ lt_irrefl a.nonce)
      · exact absurd ((List.pairwise_cons.mp htail).1 _ hmem) (lt_asymm hlt)
  · intro m hm
    refine hcross m ?_ n List.mem_cons_self
    rw [hdone]
    exact List.mem_reverse.mpr hm

theorem Path.noted (h : Path ctx live log ahead) (hn : note.resolves ctx = none) :
    Path ctx live (note :: log) ahead := by
  obtain ⟨passed,hmap,hdone⟩ := h
  refine ⟨passed,hmap,?_⟩
  rw [resolved,List.filterMap_cons,hn]
  exact hdone

theorem Path.pass (h : Path ctx live log ((n,g) :: todo)) (hn : note.resolves ctx = some n) :
    Path ctx live (note :: log) todo := by
  obtain ⟨passed,hmap,hdone⟩ := h
  refine ⟨passed ++ [(n,g)],?_,?_⟩
  · rw [hmap,List.append_assoc,List.singleton_append]
  · rw [resolved,List.filterMap_cons,hn,List.map_append,hdone,List.reverse_cons]
    rfl

/-- At the end of the walk every live nonce is done with. -/
theorem Path.complete (h : Path ctx live log []) (ha : a ∈ live) : a.nonce ∈ resolved ctx log := by
  obtain ⟨passed,hmap,hdone⟩ := h
  have hmem := nonceMap_mem ha
  rw [hmap,List.append_nil,hdone] at hmem
  exact List.mem_reverse.mp hmem

/-- The nonces are done with in ascending order. -/
theorem Journal.ascending (h : Journal ctx live log) :
    (resolved ctx log).Pairwise (· > ·) := by
  induction log with
  | nil => exact List.Pairwise.nil
  | cons note log ih =>
    have hlog := ih fun x earlier hx => h x earlier (hx.trans (List.suffix_cons note log))
    rw [resolved,List.filterMap_cons]
    cases hn : note.resolves ctx with
    | none => exact hlog
    | some n =>
      have hnonce : note.nonce = some n := by
        cases note with
        | looked a answer =>
          simp only [RecoverNote.resolves] at hn
          split at hn
          · cases hn
            rfl
          · cases hn
        | driven m o =>
          simp only [RecoverNote.resolves] at hn
          split at hn
          · cases hn
            rfl
          · cases hn
        | _ => cases hn
      exact List.pairwise_cons.mpr
        ⟨(h note log (List.suffix_refl _)).due n hnonce |>.higher,hlog⟩

end Walk

/-! ## The driver in recovery -/

/-- The task drives `n` for recovery. -/
def Activity.Drives (n : Nat) (t : Activity) : Prop :=
  ∃ f ∈ t.inFlight, f.nonce = n ∧ f.todo ≠ none

section Driving

variable {w : World} {p : PairKey} {s : Store} {t : Activity} {c : Tally} {f : InFlight} {n : Nat}

/-- A task that holds nothing and is not ready has an outcome. -/
theorem Activity.held_cases (hin : t.inFlight = none) (hfree : t.pending = none)
    (hr : t.ready = false) : t = .down ∨ t = .paused ∨ ∃ todo, t = .recovering todo := by
  cases t with
  | down => exact .inl rfl
  | paused => exact .inr (.inl rfl)
  | recovering todo => exact .inr (.inr ⟨todo,rfl⟩)
  | idle => cases hr
  | signerUnavailable => cases hr
  | binding goal a left => cases hfree
  | _ => cases hin

theorem Input.outcome_none {i : Input} (h : i.outcome t = none) :
    t ≠ .down ∧ t ≠ .paused ∧ ∀ todo, t ≠ .recovering todo := by
  refine ⟨?_,?_,?_⟩
  · rintro rfl
    cases h
  · rintro rfl
    cases i <;> cases h
  · rintro todo rfl
    cases i <;> cases h

theorem Activity.Drives.ready (h : t.Drives n) : t.ready = false := by
  obtain ⟨f,hf,-⟩ := h
  cases t with
  | idle => cases hf
  | signerUnavailable => cases hf
  | _ => rfl

theorem Activity.From.drives (h : t.From f) (hr : t.ready = true → f.todo = none)
    (hn : f.nonce = n) (ht : f.todo ≠ none) :
    t.Drives n ∨ t = .down ∨ t = .paused ∨ ∃ todo, t = .recovering todo := by
  cases hin : t.inFlight with
  | none =>
    refine .inr (Activity.held_cases hin h.free ?_)
    rw [Bool.eq_false_iff]
    exact fun hready => ht (hr hready)
  | some f' =>
    have hl := h.inFlight f' hin
    exact .inl ⟨f',hin,hl.nonce.trans hn,hl.todo ▸ ht⟩

/-- Recovery's nonce is driven on until there is an outcome. -/
theorem Turned.drives (h : Turned w p s t c) (hd : (w.tasks p).Drives n) :
    t.Drives n ∨ t = .down ∨ t = .paused ∨ ∃ todo, t = .recovering todo := by
  have hnot := hd.ready
  obtain ⟨f,hf,hn,htodo⟩ := hd
  cases h with
  | stays => exact .inl ⟨f,hf,hn,htodo⟩
  | rests ht hr =>
    refine .inr (Activity.held_cases ht.inFlight ht.free ?_)
    rw [Bool.eq_false_iff]
    intro hready
    rw [hr hready] at hnot
    cases hnot
  | goes hf' ht hr =>
    obtain rfl : f = _ := Option.some.inj (hf.symm.trans hf')
    exact ht.drives hr hn htodo
  | signs hr =>
    rw [hr] at hnot
    cases hnot
  | @signsAgain f' goal purpose g hf' hg =>
    obtain rfl : f = f' := Option.some.inj (hf.symm.trans hf')
    exact .inl ⟨f,hg,hn,htodo⟩
  | @binds goal a left s t c hp hs hto =>
    have hg : goal.inFlight = some f := by
      rw [hp] at hf
      exact hf
    rcases hto with rfl | ⟨m,rfl⟩ | ⟨e,rfl⟩
    · left
      cases goal with
      | execute => cases hg
      | replace f' => cases hg; exact ⟨_,rfl,hn,htodo⟩
      | cancel f' => cases hg; exact ⟨_,rfl,hn,htodo⟩
    · exact .inl ⟨f,hg,hn,htodo⟩
    · cases goal with
      | execute => cases hg
      | replace f' =>
        cases hg
        simp only [Goal.notBound]
        split
        · exact .inr (.inl rfl)
        · exact .inl ⟨f,rfl,hn,htodo⟩
      | cancel f' =>
        cases hg
        simp only [Goal.notBound]
        split
        · exact .inr (.inl rfl)
        · exact .inl ⟨f,rfl,hn,htodo⟩
  | voids hp hs ht hr =>
    rw [hp] at hf
    cases hf
    exact ht.drives hr hn htodo
  | loads hin hl =>
    rw [hin] at hf
    cases hf
  | walks hp hs hto =>
    rw [hp] at hf
    cases hf
  | ends hp hto =>
    rw [hp] at hf
    cases hf

/-- The bytes of a nonce are there, so the driver takes it up. -/
theorem resume_sends (chain : ChainKind) {group : List Attempt} (todo : List (List Attempt))
    (hne : ∃ a, a ∈ group) (hb : ∀ a ∈ group, a.rawTx ≠ []) (hn : ∀ a ∈ group, a.nonce = n) :
    ∃ f, resume chain group todo = .sending f ∧ f.nonce = n ∧ f.todo = some todo := by
  have hall : (group.filter fun a => !a.rawTx.isEmpty) = group := by
    refine List.filter_eq_self.mpr fun a ha => ?_
    simpa using hb a ha
  rcases resume_cases chain group todo with h | ⟨f,h,-,htodo,⟨a,ha,hnonce⟩,-⟩
  · obtain ⟨a,ha⟩ := hne
    obtain ⟨b,rest,rfl⟩ := List.exists_cons_of_ne_nil (List.ne_nil_of_mem ha)
    rw [resume,hall] at h
    cases h
  · exact ⟨f,h,hnonce.trans (hn a ha),htodo⟩

/-- Every broadcast is of the nonce being driven. -/
theorem Activity.broadcasts_nonce (ho : t.Own p) (hd : t.Drives n) (i : Input) :
    t.broadcasts i = [] ∨ ∃ a, t.broadcasts i = [.sent a] ∧ a.nonce = n := by
  obtain ⟨f,hf,hn,-⟩ := hd
  have hlast : ∀ f', t = .sending f' → f'.last.nonce = n := by
    rintro f' rfl
    cases hf
    have hslot := ho.held f rfl f.last f.last_mem
    exact (congrArg Slot.nonce hslot).trans hn
  unfold Activity.broadcasts
  split
  · next f' => exact .inr ⟨f'.last,rfl,hlast f' rfl⟩
  · next f' _ => exact .inr ⟨f'.last,rfl,hlast f' rfl⟩
  · exact .inl rfl

end Driving

end GumEngine
