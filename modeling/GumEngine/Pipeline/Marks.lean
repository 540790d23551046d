import GumEngine.Pipeline.Gapless

/-!
# The mark covers what is bound

`nonce_hwm` of a pair is raised with every bind and stepped back only when its own nonce is
released. Whatever the database and the nodes answer, and whatever the task makes of it, no
nonce that was bound and not released since lies above the mark.
-/

namespace GumEngine
open Relational Transition Sequence

/-! ## What a move can do -/

/-- What a transaction does to the slots that are bound and not released. -/
inductive Tally
  | kept
  | took (k : Slot)
  | gave (k : Slot)
deriving DecidableEq

def Tally.apply (held : List Slot) : Tally → List Slot
  | kept => held
  | took k => k :: held
  | gave k => held.filter fun x => x ≠ k

/-- The void is written, whatever the call answers. -/
def Call.voids (s : Store) (epoch : Int) (a : Attempt) (mode : VoidMode)
    (disposition : VoidDisposition) (now : Nat) : Call → Bool
  | refused _ => false
  | _ => (voidBinding s epoch a mode disposition now).isOk

/-- A bind that commits takes the slot of its attempt; a void of an unused nonce gives it
back. -/
def World.tally (w : World) (p : PairKey) : Input → Tally
  | .round r =>
    match w.tasks p with
    | .binding goal a _ => if r.call.commits w.store w.epoch a goal.kind then .took a.slot else .kept
    | _ => .kept
  | .void call now =>
    match w.tasks p with
    | .voiding f mode disposition =>
      if mode = .nonceUnused ∧ call.voids w.store w.epoch f.last mode disposition now then
        .gave f.last.slot
      else .kept
    | _ => .kept
  | _ => .kept

/-- What a move of the task of `p` can leave in the database, where it can leave the task, and
which slot it takes or gives back. -/
inductive Turned (w : World) (p : PairKey) : Store → Activity → Tally → Prop
  | stays : Turned w p w.store (w.tasks p) .kept
  | rests {t : Activity} (ht : t.Rests)
      (hr : t.ready = true → (w.tasks p).ready = true) : Turned w p w.store t .kept
  | goes {f : InFlight} {t : Activity} (hf : f ∈ (w.tasks p).inFlight) (ht : t.From f)
      (hr : t.ready = true → f.todo = none) : Turned w p w.store t .kept
  | signs {owner : SlotOwner} {g : Signature} (hr : (w.tasks p).ready = true) :
      Turned w p w.store
        (.binding .execute (sign p owner (w.nextNonce p) owner.purpose g) 5) .kept
  | signsAgain {f : InFlight} {goal : Goal} {purpose : AttemptPurpose} {g : Signature}
      (hf : f ∈ (w.tasks p).inFlight) (hg : goal.inFlight = some f) :
      Turned w p w.store (.binding goal (sign p f.owner f.nonce purpose g) 5) .kept
  | binds {goal : Goal} {a : Attempt} {left : Nat} {s : Store} {t : Activity} {c : Tally}
      (hp : w.tasks p = .binding goal a left)
      (hs : s = w.store ∧ c = .kept ∨
        bindAttempt w.store w.epoch a goal.kind = .ok s ∧ c = .took a.slot)
      (ht : t = .sending (goal.bound a) ∨ (∃ n, t = .binding goal a n) ∨ ∃ e, t = goal.notBound e) :
      Turned w p s t c
  | voids {f : InFlight} {mode : VoidMode} {disposition : VoidDisposition} {now : Nat} {s : Store}
      {t : Activity} {c : Tally} (hp : w.tasks p = .voiding f mode disposition)
      (hs : s = w.store ∧ c = .kept ∨
        voidBinding w.store w.epoch f.last mode disposition now = .ok s ∧
          c = if mode = .nonceUnused then .gave f.last.slot else .kept)
      (ht : t.From f) (hr : t.ready = true → f.todo = none) : Turned w p s t c
  | loads {live : List Attempt} (hin : (w.tasks p).inFlight = none)
      (hl : loadLiveAttemptsFor w.store p.chainId p.signer = .ok live) :
      Turned w p w.store (.recovering (byNonce live)) .kept
  | walks {group : List Attempt} {todo : List (List Attempt)} {s : Store} {t : Activity}
      (hp : w.tasks p = .recovering (group :: todo))
      (hs : s = w.store ∨ ∃ a, s = (demoteInclusion w.store a).2)
      (ht : t = .down ∨ t = .recovering todo ∨ ∃ chain, t = resume chain group todo) :
      Turned w p s t .kept
  | ends {t : Activity} (hp : w.tasks p = .recovering []) (ht : t = .down ∨ t = .idle) :
      Turned w p (ensurePair w.store p) t .kept

section Turns

variable {w : World} {p q : PairKey}

theorem Turned.round (goal : Goal) (a : Attempt) (left : Nat) (r : Round)
    (hp : w.tasks p = .binding goal a left) :
    Turned w p (w.round p goal a left r).store ((w.round p goal a left r).tasks p)
      (if r.call.commits w.store w.epoch a goal.kind then .took a.slot else .kept) := by
  have hs : (w.written a goal.kind r).store = w.store ∧
      (if r.call.commits w.store w.epoch a goal.kind then Tally.took a.slot else .kept) = .kept ∨
      bindAttempt w.store w.epoch a goal.kind = .ok (w.written a goal.kind r).store ∧
      (if r.call.commits w.store w.epoch a goal.kind then Tally.took a.slot else .kept) =
        .took a.slot := by
    rcases r.run_commits w.store w.epoch a goal.kind with ⟨hc,h⟩ | ⟨hc,-⟩
    · exact .inl ⟨h,by rw [hc]; rfl⟩
    · exact .inr ⟨Round.run_committed hc,if_pos hc⟩
  unfold World.round
  dsimp only
  split
  · rw [World.setTask_tasks]
    exact .binds hp hs (.inl rfl)
  · rw [World.setTask_tasks]
    exact .binds hp hs (.inr (.inr ⟨_,rfl⟩))
  · split
    · rw [World.setTask_tasks]
      exact .binds hp hs (.inr (.inr ⟨_,rfl⟩))
    · rw [World.setTask_tasks]
      exact .binds hp hs (.inr (.inl ⟨_,rfl⟩))

/-- A void that is written is the transaction's own. -/
theorem Call.voids_cases (c : Call) (s : Store) (epoch : Int) (a : Attempt) (mode : VoidMode)
    (disposition : VoidDisposition) (now : Nat) :
    (c.answer s (voidBinding s epoch a mode disposition now)).2 = s ∧
      (if mode = .nonceUnused ∧ c.voids s epoch a mode disposition now then Tally.gave a.slot
        else .kept) = .kept ∨
    voidBinding s epoch a mode disposition now =
        .ok (c.answer s (voidBinding s epoch a mode disposition now)).2 ∧
      (if mode = .nonceUnused ∧ c.voids s epoch a mode disposition now then Tally.gave a.slot
        else .kept) = if mode = .nonceUnused then .gave a.slot else .kept := by
  cases c with
  | refused e => exact .inl ⟨rfl,by simp [voids]⟩
  | answered =>
    cases hv : voidBinding s epoch a mode disposition now with
    | ok s' => exact .inr ⟨rfl,by simp [voids,hv,Except.isOk,Except.toBool]⟩
    | error e => exact .inl ⟨rfl,by simp [voids,hv,Except.isOk,Except.toBool]⟩
  | lost e =>
    cases hv : voidBinding s epoch a mode disposition now with
    | ok s' => exact .inr ⟨rfl,by simp [voids,hv,Except.isOk,Except.toBool]⟩
    | error e => exact .inl ⟨rfl,by simp [voids,hv,Except.isOk,Except.toBool]⟩

theorem Turned.void {f : InFlight} {mode : VoidMode} {disposition : VoidDisposition} (call : Call)
    (now : Nat) (hp : w.tasks p = .voiding f mode disposition) :
    Turned w p (w.void p f mode disposition call now).store
      ((w.void p f mode disposition call now).tasks p)
      (if mode = .nonceUnused ∧ call.voids w.store w.epoch f.last mode disposition now then
        .gave f.last.slot else .kept) := by
  have hs := call.voids_cases w.store w.epoch f.last mode disposition now
  unfold World.void
  dsimp only
  split
  · split
    · rw [World.setTask_tasks]
      exact .voids hp hs f.done_from InFlight.done_ready
    · rw [World.setTask_tasks]
      split
      · exact .voids hp hs (Activity.rests_down.from f) fun hr => by cases hr
      · exact .voids hp hs f.done_from InFlight.done_ready
  · rw [World.setTask_tasks]
    exact .voids hp hs (Activity.rests_down.from f) fun hr => by cases hr
  · rw [World.setTask_tasks]
    exact .voids hp hs (.polling (.rfl' f)) fun hr => by cases hr

theorem Turned.recoverNext (chain : ChainKind) {group : List Attempt} {todo : List (List Attempt)}
    (l : Look) (hp : w.tasks p = .recovering (group :: todo)) :
    Turned w p (w.recoverNext chain p group todo l).store
      ((w.recoverNext chain p group todo l).tasks p) .kept := by
  unfold World.recoverNext
  split
  · rw [World.setTask_tasks]
    exact .walks hp (.inl rfl) (.inr (.inr ⟨chain,rfl⟩))
  · next a _ =>
    cases l with
    | receipt =>
      simp only [World.setTask_tasks]
      exact .walks hp (.inl rfl) (.inr (.inl rfl))
    | failed =>
      simp only [World.setTask_tasks]
      exact .walks hp (.inl rfl) (.inl rfl)
    | gone call =>
      have hs : (call.answer w.store (.ok (demoteInclusion w.store a).2)).2 = w.store ∨
          ∃ b, (call.answer w.store (.ok (demoteInclusion w.store a).2)).2 =
            (demoteInclusion w.store b).2 :=
        (call.answer_store _ _).imp (fun h => h) fun ⟨s,hs,heq⟩ => ⟨a,by rw [heq]; cases hs; rfl⟩
      dsimp only
      split
      · rw [World.setTask_tasks]
        exact .walks hp hs (.inr (.inr ⟨chain,rfl⟩))
      · rw [World.setTask_tasks]
        exact .walks hp hs (.inl rfl)

theorem Turned.resigns {f : InFlight} {goal : Goal} {signed : Option Signature} {t : Activity}
    (hf : f ∈ (w.tasks p).inFlight) (hg : goal.inFlight = some f)
    (ht : f.Resigns p goal signed t) : Turned w p w.store t .kept := by
  rcases ht with rfl | ⟨g,-,purpose,g',-,rfl⟩
  · exact .goes hf (.polling (.rfl' f)) fun hr => by cases hr
  · exact .signsAgain hf hg

theorem Turned.recover (hin : (w.tasks p).inFlight = none) :
    Turned w p (w.recover p).store ((w.recover p).tasks p) .kept := by
  unfold World.recover
  split
  · next live hl =>
    rw [World.setTask_tasks]
    exact .loads hin hl
  · exact .stays

theorem Turned.down : Turned w p w.store .down .kept :=
  .rests Activity.rests_down fun hr => by cases hr

theorem World.tally_unfit {i : Input}
    (hround : ∀ r, i = .round r → ∀ goal a left, w.tasks p ≠ .binding goal a left)
    (hvoid : ∀ call now, i = .void call now →
      ∀ f mode disposition, w.tasks p ≠ .voiding f mode disposition) : w.tally p i = .kept := by
  cases i with
  | round r =>
    simp only [World.tally]
    split
    · next hp => exact absurd hp (hround r rfl _ _ _)
    · rfl
  | void call now =>
    simp only [World.tally]
    split
    · next hp => exact absurd hp (hvoid call now rfl _ _ _)
    · rfl
  | _ => rfl

/-- Every input the task of a pair can get. -/
theorem World.turn_turned (chains : ChainId → ChainKind) (i : Input) (hon : (w.tasks p).Honest) :
    Turned w p (w.turn chains p i).store ((w.turn chains p i).tasks p) (w.tally p i) := by
  have htakes := w.turn_takes chains p i
  generalize w.turn chains p i = w' at htakes ⊢
  cases htakes with
  | unfit hround hvoid => exact World.tally_unfit hround hvoid ▸ .stays
  | @execute owner signed hp =>
    have hready : (w.tasks p).ready = true := by
      rw [hp]
      rfl
    cases signed with
    | error e =>
      simp only [World.execute,World.setTask_tasks]
      exact .rests Activity.rests_signerUnavailable fun _ => hready
    | ok g =>
      simp only [World.execute,World.setTask_tasks]
      exact .signs hready
  | @round r goal a left hp =>
    simp only [World.tally,hp]
    exact .round goal a left r hp
  | deliver | arrive => exact .stays
  | @answer x f hp =>
    simp only [World.answer,World.setTask_tasks]
    exact .goes (by rw [hp]; rfl) (f.onAnswer_from _ x) fun hr => (InFlight.onAnswer_ready hr).1
  | @lookBack found f fresh parks hp =>
    rw [hp] at hon
    rw [World.setTask_tasks]
    exact .goes (by rw [hp]; rfl) (f.onNonceTooLow_from parks found hon)
      fun hr => (InFlight.onNonceTooLow_ready hr).1
  | @poll found f hp =>
    rw [World.setTask_tasks]
    exact .goes (by rw [hp]; rfl) (f.poll_from found) fun hr => (InFlight.poll_ready hr).1
  | @escalate d f hp hf =>
    rw [World.setTask_tasks]
    refine .goes (by rw [hp]; rfl) (f.escalate_from _ d) fun hr => ?_
    rw [f.escalate_ready] at hr
    cases hr
  | @replace signed f hp =>
    simp only [World.sign,World.setTask_tasks]
    exact .resigns (by rw [hp]; rfl) rfl (f.replace_resigns _ p signed)
  | @cancel signed f hp =>
    simp only [World.sign,World.setTask_tasks]
    exact .resigns (by rw [hp]; rfl) rfl (f.cancel_resigns p signed)
  | @void call now f mode disposition hp =>
    simp only [World.tally,hp]
    exact .void call now hp
  | recover hp => exact .recover hp.inFlight
  | @recoverNext l group todo hp => exact .recoverNext _ l hp
  | recoverFailed hp =>
    simp only [World.setTask_tasks]
    exact .ends hp (.inl rfl)
  | recoverDone hp =>
    simp only [World.setTask_tasks]
    exact .ends hp (.inr rfl)
  | resume hp =>
    rw [World.setTask_tasks]
    refine .rests Activity.rests_idle fun _ => ?_
    rw [hp]
    rfl
  | stop hp =>
    rw [World.setTask_tasks]
    exact .down

/-- The other pairs are where they were. -/
def World.Apart (w w' : World) (p : PairKey) : Prop :=
  ∀ q, q ≠ p → w'.tasks q = w.tasks q ∧ w'.nextNonce q = w.nextNonce q

theorem World.apart_same {w w' : World} (ht : w'.tasks = w.tasks) (hn : w'.nextNonce = w.nextNonce)
    (p : PairKey) : w.Apart w' p :=
  fun q _ => ⟨congrFun ht q,congrFun hn q⟩

theorem World.Apart.setTask {w' : World} (h : w.Apart w' p) (t : Activity) :
    w.Apart (w'.setTask p t) p := by
  intro q hq
  rw [World.tasks_setTask,if_neg hq]
  exact h q hq

theorem World.Apart.setNextNonce {w' : World} (h : w.Apart w' p) (n : Nat) :
    w.Apart (w'.setNextNonce p n) p := by
  intro q hq
  refine ⟨(h q hq).1,?_⟩
  show Function.update w'.nextNonce p n q = w.nextNonce q
  rw [Function.update_of_ne hq]
  exact (h q hq).2

theorem World.round_apart (w : World) (p : PairKey) (goal : Goal) (a : Attempt) (left : Nat)
    (r : Round) : w.Apart (w.round p goal a left r) p := by
  have hw : w.Apart (w.written a goal.kind r) p := World.apart_same rfl rfl p
  unfold World.round
  dsimp only
  split
  · exact (hw.setNextNonce _).setTask _
  · exact hw.setTask _
  · split
    · exact hw.setTask _
    · exact hw.setTask _

theorem World.void_apart (w : World) (p : PairKey) (f : InFlight) (mode : VoidMode)
    (disposition : VoidDisposition) (call : Call) (now : Nat) :
    w.Apart (w.void p f mode disposition call now) p := by
  have hstore : ∀ s, w.Apart { w with store := s } p := fun s => World.apart_same rfl rfl p
  rcases w.void_cases p f mode disposition call now with ⟨s,t,-,-,heq⟩ | ⟨s,-,-,heq⟩
  · rw [heq]
    exact (hstore s).setTask t
  · rw [heq]
    split
    · exact ((hstore s).setNextNonce _).setTask _
    · exact (hstore s).setTask _

theorem World.recoverNext_apart (w : World) (chain : ChainKind) (p : PairKey) (group : List Attempt)
    (todo : List (List Attempt)) (l : Look) : w.Apart (w.recoverNext chain p group todo l) p := by
  have hstore : ∀ s, w.Apart { w with store := s } p := fun s => World.apart_same rfl rfl p
  unfold World.recoverNext
  split
  · exact (hstore w.store).setTask _
  · cases l with
    | receipt => exact (hstore w.store).setTask _
    | failed => exact (hstore w.store).setTask _
    | gone call =>
      dsimp only
      split
      · exact (hstore _).setTask _
      · exact (hstore _).setTask _

/-- A move leaves the other pairs where they were. -/
theorem World.turn_apart (chains : ChainId → ChainKind) (w : World) (p : PairKey) (i : Input) :
    w.Apart (w.turn chains p i) p := by
  have hsame : w.Apart w p := World.apart_same rfl rfl p
  have htakes := w.turn_takes chains p i
  generalize w.turn chains p i = w' at htakes ⊢
  cases htakes with
  | unfit => exact hsame
  | @execute owner signed hp =>
    cases signed with
    | error e => exact hsame.setTask _
    | ok g => exact (World.apart_same rfl rfl p).setTask _
  | round hp => exact w.round_apart p _ _ _ _
  | deliver | arrive => exact World.apart_same rfl rfl p
  | answer hp | replace hp | cancel hp => exact (World.apart_same rfl rfl p).setTask _
  | void hp => exact w.void_apart p _ _ _ _ _
  | recover hp =>
    unfold World.recover
    split
    · exact hsame.setTask _
    · exact hsame
  | recoverNext hp => exact w.recoverNext_apart _ p _ _ _
  | recoverFailed hp => exact (World.apart_same rfl rfl p).setTask _
  | recoverDone hp => exact ((World.apart_same rfl rfl p).setNextNonce _).setTask _
  | lookBack hp | poll hp | escalate hp | resume hp | stop hp => exact hsame.setTask _

end Turns

/-! ## Attempts stay at their pair -/

/-- Everything the task of `p` holds is at a nonce of `p`. -/
structure Activity.Own (p : PairKey) (t : Activity) : Prop where
  honest : t.Honest
  pending : ∀ a, t.pending = some a → a.slot = p.slot a.nonce
  again : ∀ goal a left, t = .binding goal a left → ∀ f ∈ goal.inFlight, a.nonce = f.nonce
  held : ∀ f ∈ t.inFlight, ∀ a ∈ f.attempts, a.slot = p.slot f.nonce
  todo : ∀ g ∈ t.todo, ∃ n, ∀ a ∈ g, a.slot = p.slot n

/-- The task takes jobs, or is at one it took itself. -/
def Activity.launched : Activity → Bool
  | .idle | .signerUnavailable | .binding .execute _ _ => true
  | t => t.inFlight.any fun f => f.todo.isNone

section Own

variable {w : World} {p : PairKey} {s : Store} {t : Activity} {c : Tally} {f : InFlight}

theorem Activity.Rests.own (h : t.Rests) (p : PairKey) : t.Own p := by
  refine ⟨h.honest,?_,?_,?_,?_⟩
  · intro a ha
    rw [h.free] at ha
    cases ha
  · rintro goal a left rfl
    cases h.free
  · exact fun f hf => absurd hf h.no_inFlight
  · intro g hg
    rw [h.todo] at hg
    cases hg

theorem Activity.From.own (h : t.From f) {t₀ : Activity} (hf : f ∈ t₀.inFlight)
    (h₀ : t₀.Own p) : t.Own p := by
  refine ⟨h.honest,?_,?_,?_,?_⟩
  · intro a ha
    rw [h.free] at ha
    cases ha
  · rintro goal a left rfl
    cases h.free
  · intro g hg a ha
    have hl := h.inFlight g hg
    rw [hl.attempts] at ha
    rw [hl.nonce]
    exact h₀.held f hf a ha
  · intro g hg
    refine h₀.todo g ?_
    rw [Activity.todo_of_inFlight hf]
    exact h.todo g hg

theorem Activity.Own.resume {chain : ChainKind} {group : List Attempt} {todo : List (List Attempt)}
    (hg : ∃ n, ∀ a ∈ group, a.slot = p.slot n)
    (ht : ∀ g ∈ todo, ∃ n, ∀ a ∈ g, a.slot = p.slot n) : (resume chain group todo).Own p := by
  obtain ⟨hfree,hon,htodo⟩ := resume_pending chain group todo
  obtain ⟨n,hn⟩ := hg
  refine ⟨hon,?_,?_,?_,?_⟩
  · intro a ha
    rw [hfree] at ha
    cases ha
  · intro goal a left hb
    rw [hb] at hfree
    cases hfree
  · intro f hf a ha
    rcases resume_cases chain group todo with h | ⟨f',h,-,-,⟨b,hb,hnonce⟩,-,hcop⟩
    · rw [h] at hf
      cases hf
    · rw [h] at hf
      cases hf
      obtain ⟨x,hx,rfl⟩ := hcop a ha
      have hbn : b.nonce = n := congrArg Slot.nonce (hn b hb)
      rw [hnonce,hbn]
      exact hn x hx
  · rw [htodo]
    exact ht

/-- The nonce in flight once an attempt is bound. -/
theorem Activity.Own.bound {goal : Goal} {a : Attempt} {left : Nat}
    (h : (Activity.binding goal a left).Own p) : (Activity.sending (goal.bound a)).Own p := by
  have hslot := h.pending a rfl
  -- one more attempt at a nonce in flight
  have hjoined : ∀ f, goal.inFlight = some f → ∀ b ∈ f.attempts ++ [a], b.slot = p.slot f.nonce := by
    intro f hf b hb
    rcases List.mem_append.mp hb with hb | hb
    · exact h.held f hf b hb
    · obtain rfl : b = a := List.mem_singleton.mp hb
      exact h.again goal b left rfl f hf ▸ hslot
  refine ⟨trivial,?_,?_,?_,?_⟩
  · rintro b ⟨⟩
  · rintro goal b left ⟨⟩
  · rintro f' ⟨⟩
    cases goal with
    | execute =>
      intro b hb
      obtain rfl : b = a := List.mem_singleton.mp hb
      exact hslot
    | replace f => exact hjoined f rfl
    | cancel f => exact hjoined f rfl
  · cases goal with
    | execute => rintro g ⟨⟩
    | replace f => exact h.todo
    | cancel f => exact h.todo

/-- What is loaded for a pair is at its nonces. -/
theorem loadLive_slot {live : List Attempt} {a : Attempt} {s : Store}
    (h : loadLiveAttemptsFor s p.chainId p.signer = .ok live) (ha : a ∈ live) :
    a.slot = p.slot a.nonce := by
  obtain ⟨r,-,-,hc,hs,hrow⟩ := loadLive_mem h ha
  have hslot := attemptRow_slot hrow
  have hchain : a.chainId = r.chainId := congrArg Slot.chainId hslot
  have hsigner : a.signer = r.signer := congrArg Slot.signer hslot
  rw [Attempt.slot,PairKey.slot,hchain,hsigner,hc,hs]

theorem Turned.own (h : Turned w p s t c) (h₀ : (w.tasks p).Own p) : t.Own p := by
  cases h with
  | stays => exact h₀
  | rests ht hr => exact ht.own p
  | goes hf ht hr => exact ht.own hf h₀
  | signs hr =>
    refine ⟨trivial,?_,?_,?_,?_⟩
    · rintro a ⟨⟩
      rfl
    · rintro goal a left ⟨⟩ f ⟨⟩
    · rintro f ⟨⟩
    · rintro g ⟨⟩
  | @signsAgain f goal purpose g hf hg =>
    refine ⟨trivial,?_,?_,?_,?_⟩
    · rintro a ⟨⟩
      rfl
    · rintro goal a left ⟨⟩ f' hf'
      obtain rfl : f = f' := Option.some.inj (hg.symm.trans hf')
      rfl
    · intro f' hf'
      obtain rfl : f = f' := Option.some.inj (hg.symm.trans hf')
      exact h₀.held f hf
    · intro g' hg'
      have hin : f ∈ (Activity.binding goal (sign p f.owner f.nonce purpose g) 5).inFlight := hg
      rw [Activity.todo_of_inFlight hin,← Activity.todo_of_inFlight hf] at hg'
      exact h₀.todo g' hg'
  | @binds goal a left s t c hp hs ht =>
    have hin : (w.tasks p).inFlight = goal.inFlight := by
      rw [hp]
      rfl
    rcases ht with rfl | ⟨n,rfl⟩ | ⟨e,rfl⟩
    · exact (hp ▸ h₀).bound
    · rw [hp] at h₀
      refine ⟨trivial,h₀.pending,?_,h₀.held,h₀.todo⟩
      rintro goal' a' left' ⟨⟩
      exact h₀.again goal a left rfl
    · rcases goal.notBound_cases e with hr | ⟨f,hf,hfrom⟩
      · exact hr.own p
      · exact hfrom.own (hin ▸ hf) h₀
  | voids hp hs ht hr => exact ht.own (by rw [hp]; rfl) h₀
  | @loads live hin hl =>
    refine ⟨trivial,?_,?_,?_,?_⟩
    · rintro a ⟨⟩
    · rintro goal a left ⟨⟩
    · rintro f ⟨⟩
    · intro g hg
      obtain ⟨n,hn⟩ := byNonce_mem hg
      exact ⟨n,fun a ha => (hn a ha).2 ▸ loadLive_slot hl (hn a ha).1⟩
  | @walks group todo s t hp hs ht =>
    rw [hp] at h₀
    have htodo : ∀ g ∈ todo, ∃ n, ∀ a ∈ g, a.slot = p.slot n :=
      fun g hg => h₀.todo g (List.mem_cons_of_mem group hg)
    rcases ht with rfl | rfl | ⟨chain,rfl⟩
    · exact Activity.rests_down.own p
    · exact ⟨trivial,by rintro a ⟨⟩,by rintro goal a left ⟨⟩,by rintro f ⟨⟩,htodo⟩
    · exact .resume (h₀.todo group List.mem_cons_self) htodo
  | ends hp ht =>
    rcases ht with rfl | rfl
    · exact Activity.rests_down.own p
    · exact Activity.rests_idle.own p

theorem Activity.launched_of_inFlight (hf : f ∈ t.inFlight) : t.launched = f.todo.isNone := by
  cases t with
  | binding goal a left =>
    cases goal with
    | execute => cases hf
    | replace g => cases hf; rfl
    | cancel g => cases hf; rfl
  | sending g => cases hf; rfl
  | polling g => cases hf; rfl
  | lookingBack g fresh parks => cases hf; rfl
  | replacing g => cases hf; rfl
  | cancelling g => cases hf; rfl
  | voiding g mode disposition => cases hf; rfl
  | down => cases hf
  | paused => cases hf
  | signerUnavailable => cases hf
  | idle => cases hf
  | recovering todo => cases hf

theorem Activity.launched_of_none (hin : t.inFlight = none) (hfree : t.pending = none) :
    t.launched = t.ready := by
  cases t with
  | binding goal a left => cases hfree
  | sending g => cases hin
  | polling g => cases hin
  | lookingBack g fresh parks => cases hin
  | replacing g => cases hin
  | cancelling g => cases hin
  | voiding g mode disposition => cases hin
  | down => rfl
  | paused => rfl
  | signerUnavailable => rfl
  | idle => rfl
  | recovering todo => rfl

theorem Activity.launched_of_ready (h : t.ready = true) : t.launched = true := by
  cases t with
  | idle => rfl
  | signerUnavailable => rfl
  | _ => cases h

/-- Whoever goes on with a nonce in flight took it as the one before. -/
theorem Activity.From.launched (h : t.From f) {t₀ : Activity} (hf : f ∈ t₀.inFlight)
    (hr : t.ready = true → f.todo = none) (ht : t.launched = true) : t₀.launched = true := by
  rw [Activity.launched_of_inFlight hf,Option.isNone_iff_eq_none]
  cases hin : t.inFlight with
  | none =>
    rw [Activity.launched_of_none hin h.free] at ht
    exact hr ht
  | some g =>
    rw [Activity.launched_of_inFlight hin,Option.isNone_iff_eq_none] at ht
    rw [← (h.inFlight g hin).todo]
    exact ht

theorem Goal.notBound_launched {goal : Goal} {a : Attempt} {left : Nat} (e : StoreError)
    (ht : (goal.notBound e).launched = true) : (Activity.binding goal a left).launched = true := by
  cases goal with
  | execute => rfl
  | replace g =>
    simp only [Goal.notBound] at ht
    split at ht
    · cases ht
    · exact ht
  | cancel g =>
    simp only [Goal.notBound] at ht
    split at ht
    · cases ht
    · exact ht

theorem resume_launched (chain : ChainKind) (group : List Attempt) (todo : List (List Attempt)) :
    (resume chain group todo).launched = false := by
  rcases resume_cases chain group todo with h | ⟨f,h,-,htodo,-⟩
  · rw [h]
    rfl
  · rw [h,Activity.launched_of_inFlight (show f ∈ (Activity.sending f).inFlight from rfl),htodo]
    rfl

/-- The task is launched by the end of recovery only. -/
theorem Turned.launched (h : Turned w p s t c) (ht : t.launched = true) :
    (w.tasks p).launched = true ∨ s = ensurePair w.store p := by
  cases h with
  | stays => exact .inl ht
  | rests hrests hr =>
    rw [Activity.launched_of_none hrests.inFlight hrests.free] at ht
    exact .inl (Activity.launched_of_ready (hr ht))
  | goes hf hfrom hr => exact .inl (hfrom.launched hf hr ht)
  | signs hr => exact .inl (Activity.launched_of_ready hr)
  | @signsAgain f goal purpose g hf hg =>
    have hin : f ∈ (Activity.binding goal (sign p f.owner f.nonce purpose g) 5).inFlight := hg
    rw [Activity.launched_of_inFlight hin] at ht
    rw [Activity.launched_of_inFlight hf]
    exact .inl ht
  | @binds goal a left s t c hp hs hto =>
    left
    rw [hp]
    rcases hto with rfl | ⟨n,rfl⟩ | ⟨e,rfl⟩
    · cases goal with
      | execute => rfl
      | replace f => exact ht
      | cancel f => exact ht
    · cases goal with
      | execute => rfl
      | replace f => exact ht
      | cancel f => exact ht
    · exact Goal.notBound_launched e ht
  | voids hp hs hfrom hr => exact .inl (hfrom.launched (by rw [hp]; rfl) hr ht)
  | loads hin hl => cases ht
  | @walks group todo s t hp hs hto =>
    rcases hto with rfl | rfl | ⟨chain,rfl⟩
    · cases ht
    · cases ht
    · rw [resume_launched] at ht
      cases ht
  | ends hp hto => exact .inr rfl

end Own

/-! ## The mark -/

/-- The nonces of `p` among the slots that are bound and not released, and the mark. -/
def Store.marks (s : Store) (held : List Slot) (p : PairKey) : Numbering where
  taken := { n | p.slot n ∈ held }
  passed := ∅
  mark := s.nonceHwm p

/-- The mark of every pair covers what is bound, and every slot is of a pair with a row. -/
structure Store.Covered (s : Store) (held : List Slot) : Prop where
  below : ∀ p, (s.marks held p).Below
  rows : ∀ x ∈ s.nonceSlots.rows, ∀ p n, x.slot = p.slot n → s.HasPair p

section Covered

variable {s s' : Store} {held : List Slot} {p q : PairKey} {a : Attempt} {n : Nat} {epoch : Int}

theorem Store.HasPair.of_pairs (hs : s'.pairs = s.pairs) (h : s.HasPair p) : s'.HasPair p := by
  obtain ⟨r,hr,hk⟩ := h
  exact ⟨r,hs ▸ hr,hk⟩

theorem Store.nonceHwm_of_pairs (hs : s'.pairs = s.pairs) (p : PairKey) :
    s'.nonceHwm p = s.nonceHwm p := by
  rw [Store.nonceHwm,Store.nonceHwm,hs]

theorem Store.Covered.of_kept (h : s.Covered held) (hslots : s'.nonceSlots = s.nonceSlots)
    (hpairs : s'.pairs = s.pairs) : s'.Covered held := by
  constructor
  · intro p
    have hsame : s'.marks held p = s.marks held p :=
      Numbering.ext rfl rfl (Store.nonceHwm_of_pairs hpairs p)
    rw [hsame]
    exact h.below p
  · intro x hx p n hxs
    exact (h.rows x (hslots ▸ hx) p n hxs).of_pairs hpairs

/-- Whoever binds has a row: the first bind of a nonce by its task, a further one by its slot. -/
theorem Store.Covered.bind_row (h : s.Covered held) {kind : BindKind}
    (hb : bindAttempt s epoch a kind = .ok s') (hslot : a.slot = p.slot n)
    (hrow : kind = .first → s.HasPair p) : s.HasPair p := by
  by_cases hk : kind = .first
  · exact hrow hk
  · have howner := claimSlot_again (bindAttempt_spec hb).slots hk
    obtain ⟨x,hx,-⟩ := Option.map_eq_some_iff.mp howner
    have hxs : x.slot = a.slot := by simpa using List.find?_some hx
    exact h.rows x (List.mem_of_find?_eq_some hx) p n (hxs.trans hslot)

theorem Store.HasPair.bind {kind : BindKind} (hb : bindAttempt s epoch a kind = .ok s')
    (h : s.HasPair q) : s'.HasPair q :=
  .of_update _ (PairRow.raise a.nonce) (fun _ => rfl) (bindAttempt_pairs hb) h

/-- A bind takes the nonce of its attempt, and leaves the other pairs alone. -/
theorem Store.marks_bind {kind : BindKind} (hb : bindAttempt s epoch a kind = .ok s')
    (hslot : a.slot = p.slot n) (hrow : s.HasPair p) (q : PairKey) :
    s'.marks (a.slot :: held) q = if q = p then (s.marks held q).take n else s.marks held q := by
  have hpairs : s'.pairs = raiseHwm s.pairs (p.slot n) := hslot ▸ bindAttempt_pairs hb
  split
  · next hq =>
    subst hq
    refine Numbering.ext (Set.ext fun m => ?_) rfl (Store.raise_hwm hpairs hrow)
    simp [Store.marks,Numbering.take,hslot,PairKey.slot_inj]
  · next hq =>
    refine Numbering.ext (Set.ext fun m => ?_) rfl (Store.raise_hwm_other hpairs hq)
    simp [Store.marks,hslot,PairKey.slot_inj,hq]

theorem Store.Covered.bind (h : s.Covered held) {kind : BindKind}
    (hb : bindAttempt s epoch a kind = .ok s') (hslot : a.slot = p.slot n)
    (hrow : s.HasPair p) : s'.Covered (a.slot :: held) := by
  constructor
  · intro q
    rw [Store.marks_bind hb hslot hrow]
    split
    · exact (h.below q).take n
    · exact h.below q
  · intro x hx q m hxs
    rcases (claimSlot_taken (bindAttempt_spec hb).slots (q.slot m)).mp ⟨x,hx,hxs⟩ with hm | ⟨y,hy,hys⟩
    · obtain rfl : q = p := (PairKey.slot_inj.mp (hm.trans hslot)).1
      exact hrow.bind hb
    · exact (h.rows y hy q m hys).bind hb

theorem Store.HasPair.void {mode : VoidMode} {disposition : VoidDisposition} {now : Nat}
    (hv : voidBinding s epoch a mode disposition now = .ok s') (h : s.HasPair q) :
    s'.HasPair q := by
  have hpairs := voidBinding_pairs hv
  split at hpairs
  · exact .of_update _ (PairRow.lower a.nonce) (fun _ => rfl) hpairs h
  · exact h.of_pairs hpairs

/-- A void of an unused nonce releases it, and leaves the other pairs alone. -/
theorem Store.marks_void {mode : VoidMode} {disposition : VoidDisposition} {now : Nat}
    (hv : voidBinding s epoch a mode disposition now = .ok s') (hslot : a.slot = p.slot n)
    (q : PairKey) :
    s'.marks ((if mode = .nonceUnused then Tally.gave a.slot else .kept).apply held) q =
      if mode = .nonceUnused ∧ q = p then (s.marks held q).release n else s.marks held q := by
  have hpairs := voidBinding_pairs hv
  by_cases hm : mode = .nonceUnused
  · rw [if_pos hm,hslot] at hpairs
    rw [if_pos hm]
    by_cases hq : q = p
    · subst hq
      rw [if_pos ⟨hm,rfl⟩]
      refine Numbering.ext (Set.ext fun m => ?_) rfl (Store.lower_hwm hpairs)
      simp [Store.marks,Numbering.release,Tally.apply,hslot,PairKey.slot_inj]
    · rw [if_neg fun h => hq h.2]
      refine Numbering.ext (Set.ext fun m => ?_) rfl (Store.lower_hwm_other hpairs hq)
      simp [Store.marks,Tally.apply,hslot,PairKey.slot_inj,hq]
  · rw [if_neg hm] at hpairs
    rw [if_neg hm,if_neg fun h => hm h.1]
    exact Numbering.ext rfl rfl (Store.nonceHwm_of_pairs hpairs q)

theorem Store.Covered.void (h : s.Covered held) {mode : VoidMode} {disposition : VoidDisposition}
    {now : Nat} (hv : voidBinding s epoch a mode disposition now = .ok s')
    (hslot : a.slot = p.slot n) :
    s'.Covered ((if mode = .nonceUnused then Tally.gave a.slot else .kept).apply held) := by
  constructor
  · intro q
    rw [Store.marks_void hv hslot]
    split
    · exact (h.below q).release n
    · exact h.below q
  · intro x hx q m hxs
    rw [(voidBinding_spec hv).slots] at hx
    exact (h.rows x (List.mem_filter.mp hx).1 q m hxs).void hv

theorem Store.marks_ensurePair (s : Store) (held : List Slot) (p q : PairKey) :
    (ensurePair s p).marks held q = s.marks held q :=
  Numbering.ext rfl rfl (ensurePair_nonceHwm s p q)

theorem Store.Covered.ensurePair (h : s.Covered held) (p : PairKey) :
    (ensurePair s p).Covered held := by
  constructor
  · intro q
    rw [Store.marks_ensurePair]
    exact h.below q
  · exact fun x hx q n hxs => (h.rows x hx q n hxs).ensurePair p

end Covered

/-- The driver, and the slots that were bound and not released since. -/
structure History where
  world : World
  held : List Slot

namespace History

def init : History := ⟨World.init,[]⟩

def tally (w : World) : Event → Tally
  | .task p i => w.tally p i
  | _ => .kept

def step (chains : ChainId → ChainKind) (h : History) (e : Event) : History :=
  ⟨h.world.step chains e,(tally h.world e).apply h.held⟩

end History

/-- The driver machine with its history. -/
def recorded (chains : ChainId → ChainKind) : Machine History Event where
  allowed h e := e.Possible h.world
  step := History.step chains

/-- The invariant: whoever may bind has a row, and holds what is its own. -/
structure Marked (h : History) : Prop where
  covered : h.world.store.Covered h.held
  launched : ∀ p, (h.world.tasks p).launched = true → h.world.store.HasPair p
  own : ∀ p, (h.world.tasks p).Own p


section Steps

variable {w : World} {p q : PairKey} {s : Store} {t : Activity} {c : Tally} {held : List Slot}

/-- What a move of the task of `p` does to the marks: those of the other pairs stay, all stay
covered, and no row is lost. -/
structure Store.Advances (s : Store) (held : List Slot) (p : PairKey) (s' : Store)
    (held' : List Slot) : Prop where
  covered : s'.Covered held'
  others : ∀ q, q ≠ p → s'.marks held' q = s.marks held q
  rows : ∀ q, s.HasPair q → s'.HasPair q

theorem Store.Covered.kept {s' : Store} (h : s.Covered held) (hslots : s'.nonceSlots = s.nonceSlots)
    (hpairs : s'.pairs = s.pairs) (p : PairKey) : s.Advances held p s' held :=
  ⟨h.of_kept hslots hpairs,
    fun q _ => Numbering.ext rfl rfl (Store.nonceHwm_of_pairs hpairs q),
    fun _ hq => hq.of_pairs hpairs⟩

theorem demoteInclusion_slots (s : Store) (a : Attempt) :
    (demoteInclusion s a).2.nonceSlots = s.nonceSlots :=
  (Op.unfenced_kept (show (Op.demoteInclusion a).Unfenced = true from rfl)).slots

theorem Turned.advances (h : Turned w p s t c) (hc : w.store.Covered held)
    (hown : (w.tasks p).Own p) (hl : (w.tasks p).launched = true → w.store.HasPair p) :
    w.store.Advances held p s (c.apply held) := by
  have hsame : w.store.Advances held p w.store held := hc.kept rfl rfl p
  cases h with
  | stays => exact hsame
  | rests ht hr => exact hsame
  | goes hf ht hr => exact hsame
  | signs hr => exact hsame
  | signsAgain hf hg => exact hsame
  | @binds goal a left s t c hp hs ht =>
    rcases hs with ⟨rfl,rfl⟩ | ⟨hb,rfl⟩
    · exact hsame
    · have hslot := hown.pending a (by rw [hp]; rfl)
      have hrow : w.store.HasPair p := by
        refine hc.bind_row hb hslot fun hk => hl ?_
        rw [hp]
        cases goal with
        | execute => rfl
        | replace f => cases hk
        | cancel f => cases hk
      refine ⟨hc.bind hb hslot hrow,?_,fun q hq => hq.bind hb⟩
      intro q hq
      rw [Tally.apply,Store.marks_bind hb hslot hrow,if_neg hq]
  | @voids f mode disposition now s t c hp hs ht hr =>
    rcases hs with ⟨rfl,rfl⟩ | ⟨hv,rfl⟩
    · exact hsame
    · have hslot : f.last.slot = p.slot f.nonce := hown.held f (by rw [hp]; rfl) f.last f.last_mem
      refine ⟨hc.void hv hslot,?_,fun q hq => hq.void hv⟩
      intro q hq
      rw [Store.marks_void hv hslot,if_neg fun hx => hq hx.2]
  | loads hin hl => exact hsame
  | walks hp hs ht =>
    rcases hs with rfl | ⟨a,rfl⟩
    · exact hsame
    · exact hc.kept (demoteInclusion_slots _ a) (demoteInclusion_pairs _ a) p
  | ends hp ht =>
    exact ⟨hc.ensurePair p,fun q _ => Store.marks_ensurePair _ held p q,fun q hq => hq.ensurePair p⟩

theorem Marked.init : Marked .init := by
  refine ⟨⟨?_,?_⟩,?_,?_⟩
  · rintro p n ⟨⟩
  · rintro x ⟨⟩
  · intro p hp
    cases hp
  · exact fun p => Activity.rests_down.own p

/-- A move of one task. -/
theorem Marked.turn (h : Marked ⟨w,held⟩) (chains : ChainId → ChainKind) (p : PairKey) (i : Input) :
    Marked ⟨w.turn chains p i,(w.tally p i).apply held⟩ := by
  have hturn := World.turn_turned chains i (h.own p).honest
  have hadv := hturn.advances h.covered (h.own p) (h.launched p)
  refine ⟨hadv.covered,?_,?_⟩
  · intro q hq
    by_cases hqp : q = p
    · subst hqp
      rcases hturn.launched hq with hl | hs
      · exact hadv.rows q (h.launched q hl)
      · show ((w.turn chains q i).store).HasPair q
        rw [hs]
        exact ensurePair_hasPair w.store q
    · refine hadv.rows q (h.launched q ?_)
      rw [← (w.turn_apart chains p i q hqp).1]
      exact hq
  · intro q
    by_cases hqp : q = p
    · subst hqp
      exact hturn.own (h.own q)
    · show ((w.turn chains p i).tasks q).Own q
      rw [(w.turn_apart chains p i q hqp).1]
      exact h.own q

theorem Marked.step {h : History} (hm : Marked h) {chains : ChainId → ChainKind} {e : Event}
    (he : e.Possible h.world) : Marked (h.step chains e) := by
  cases e with
  | op o =>
    have hun := Op.Possible.unfenced he
    have hpairs := Op.unfenced_pairs hun h.world.store
    exact ⟨hm.covered.of_kept (Op.unfenced_kept hun).slots hpairs,
      fun p hp => (hm.launched p hp).of_pairs hpairs,hm.own⟩
  | mine k m => exact ⟨hm.covered,hm.launched,hm.own⟩
  | restart =>
    refine ⟨hm.covered.of_kept rfl rfl,?_,fun p => Activity.rests_down.own p⟩
    intro p hp
    cases hp
  | task p i => exact hm.turn chains p i

/-- In every run, whatever is answered, the mark covers what is bound and not released. -/
theorem Marked.reaches {chains : ChainId → ChainKind} {h : History}
    (hr : (recorded chains).Reaches .init h) : Marked h :=
  hr.invariant .init fun _ _ hs he => hs.step he

end Steps

end GumEngine
