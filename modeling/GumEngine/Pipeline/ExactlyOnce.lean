import GumEngine.Pipeline.Fates

/-!
# Exactly-once execution

A void gives a job back, or fails it, on the word of `never_accepted`: the first broadcast
of the nonce was not acknowledged. That proves that nothing was sent only if no broadcast
reaches a node without the driver being told. Under that condition a job is executed at
most once, over all nonces it is ever bound to, and never once it has failed.
-/

namespace GumEngine
open Relational Transition

/-- The answer says what became of the bytes: some node has them, they were mined, or they
never will be. -/
def Answer.tells (f : InFlight) : Answer → Bool
  | .accepted => true
  | .receipt hash usable => (f.onReceipt hash usable).isSome
  | .error .alreadyKnown _ | .error .acceptedPending _ | .error .deterministic _ => true
  | .notDelivered | .error _ _ => false

def Call.told : Call → Bool
  | .lost _ => false
  | _ => true

/-- The driver is told of what it relies on. Of a nonce that it takes for never accepted no bytes
reach a node but those being sent, and then it hears of them; no bytes of a voided attempt do,
unless they can never be mined; the commit of a void is answered; and `attempt_exists` finds its
own attempts only. -/
def Event.Told (w : World) : Event → Prop
  | .task p (.answer a) => ∀ f ∈ (w.tasks p).inFlight, f.neverAccepted = true →
    (f.last.slot,f.last.txHash) ∈ w.delivered → a.tells f = true
  | .task p (.arrive nonce txHash) => w.mined (p.slot nonce) = none → txHash ∉ w.dead →
    (∀ r ∈ w.store.txAttempts.rows, r.txHash = txHash → r.status ≠ .dropped) ∧
      ((w.tasks p).opens = some nonce → (p.slot nonce,txHash) ∈ (w.tasks p).airs)
  | .task _ (.void call _) => call.told = true
  | e => e.AsksOwn w

theorem Event.Told.asksOwn {w : World} {e : Event} (h : e.Told w) : e.AsksOwn w := by
  cases e with
  | task p i =>
    cases i with
    | answer a => trivial
    | arrive nonce txHash => trivial
    | void call now => trivial
    | _ => exact h
  | _ => exact h

instance (w : World) : DecidablePred (Event.Told w)
  | .task p (.answer a) => inferInstanceAs (Decidable (∀ f ∈ (w.tasks p).inFlight,
      f.neverAccepted = true → (f.last.slot,f.last.txHash) ∈ w.delivered → a.tells f = true))
  | .task p (.arrive nonce txHash) => inferInstanceAs (Decidable
      (w.mined (p.slot nonce) = none → txHash ∉ w.dead →
        (∀ r ∈ w.store.txAttempts.rows, r.txHash = txHash → r.status ≠ .dropped) ∧
          ((w.tasks p).opens = some nonce → (p.slot nonce,txHash) ∈ (w.tasks p).airs)))
  | .task _ (.void call _) => inferInstanceAs (Decidable (call.told = true))
  | .task p (.round r) => inferInstanceAs (Decidable (Event.AsksOwn w (.task p (.round r))))
  | .op _ | .mine _ _ | .restart | .task _ (.execute _ _) | .task _ .deliver
  | .task _ (.lookBack _) | .task _ (.poll _) | .task _ (.escalate _) | .task _ (.sign _)
  | .task _ .recover | .task _ (.recoverNext _) | .task _ (.recoverDone _) | .task _ .resume
  | .task _ .stop => .isTrue trivial

section Tasks

variable {w : World} {p : PairKey} {t : Activity}

theorem ChainSound.setTask (h : ChainSound w) (p : PairKey) (t : Activity) :
    ChainSound (w.setTask p t) :=
  ⟨h.mined,h.delivered,h.included,h.replaced,h.dropped,h.slots⟩

theorem JobsSound.setTask (h : JobsSound w) (p : PairKey) (t : Activity) :
    JobsSound (w.setTask p t) :=
  ⟨h.owner,h.home,h.queued,h.failed⟩

theorem Sound.setTask (h : Sound w) (hfree : t.pending = none)
    (hheld : ∀ f ∈ t.inFlight, f.Sound w.store)
    (htodo : ∀ g ∈ t.todo, ∀ a ∈ g, w.store.Alive a.id)
    (hfresh : ∀ f ∈ t.inFlight, f.neverAccepted = true → ∀ r ∈ w.store.txAttempts.rows,
      r.slot = p.slot f.nonce → t.onAir ≠ some r.id → w.Harmless r) : Sound (w.setTask p t) := by
  refine ⟨h.chain.setTask p t,h.jobs.setTask p t,?_,?_,?_,?_,?_,?_⟩
  · intro q f hf
    rw [w.tasks_setTask] at hf
    split at hf
    · exact hheld f hf
    · exact h.tasks.held q f hf
  · intro q g hg
    rw [w.tasks_setTask] at hg
    split at hg
    · exact htodo g hg
    · exact h.tasks.todo q g hg
  · intro q a ha
    rw [w.tasks_setTask] at ha
    split at ha
    · rw [hfree] at ha
      cases ha
    · exact h.tasks.pending q a ha
  · intro q goal a left hq
    rw [w.tasks_setTask] at hq
    split at hq
    · rw [hq] at hfree
      cases hfree
    · exact h.tasks.goal q goal a left hq
  · intro q f hf
    rw [w.tasks_setTask] at hf ⊢
    split at hf
    · next hq =>
      rw [if_pos hq,hq]
      exact hfresh f hf
    · next hq =>
      rw [if_neg hq]
      exact h.tasks.fresh q f hf
  · intro q a left hq
    rw [w.tasks_setTask] at hq
    split at hq
    · rw [hq] at hfree
      cases hfree
    · exact h.tasks.first q a left hq

theorem Sound.rests (h : Sound w) (ht : t.Rests) : Sound (w.setTask p t) := by
  refine h.setTask ht.free ?_ ?_ ?_
  · exact fun f hf => absurd hf ht.no_inFlight
  · intro g hg
    rw [ht.todo] at hg
    cases hg
  · exact fun f hf => absurd hf ht.no_inFlight

/-- The task goes on with its nonce, nothing at it being on the air. -/
theorem Sound.goes (h : Sound w) {f : InFlight} (hf : f ∈ (w.tasks p).inFlight) (ht : t.From f)
    (hclear : ∀ f' ∈ t.inFlight, f'.neverAccepted = true → ∀ r ∈ w.store.txAttempts.rows,
      r.slot = p.slot f.nonce → w.Harmless r) : Sound (w.setTask p t) := by
  obtain ⟨halive,hown,hnone⟩ := h.tasks.held p f hf
  refine h.setTask ht.free ?_ ?_ ?_
  · intro f' hf'
    have hl := ht.inFlight f' hf'
    refine ⟨?_,?_,?_⟩
    · rw [hl.attempts]
      exact halive
    · rw [hl.attempts,hl.owner]
      exact hown
    · intro hfr
      rw [hl.todo]
      exact hnone (hl.fresh hfr)
  · intro g hg
    refine h.tasks.todo p g ?_
    rw [Activity.todo_of_inFlight hf]
    exact ht.todo g hg
  · intro f' hf' hfr r hr hs _
    rw [(ht.inFlight f' hf').nonce] at hs
    exact hclear f' hf' hfr r hr hs

/-- With nothing on the air, a fresh nonce is harmless. -/
theorem Sound.moves (h : Sound w) {f : InFlight} (hf : f ∈ (w.tasks p).inFlight)
    (hair : (w.tasks p).onAir = none) (ht : t.From f) : Sound (w.setTask p t) := by
  refine h.goes hf ht ?_
  intro f' hf' hfr r hr hs
  refine h.tasks.fresh p f hf ((ht.inFlight f' hf').fresh hfr) r hr hs ?_
  rw [hair]
  exact fun hx => by cases hx

theorem Sound.setNextNonce (h : Sound w) (p : PairKey) (n : Nat) : Sound (w.setNextNonce p n) :=
  ⟨⟨h.chain.mined,h.chain.delivered,h.chain.included,h.chain.replaced,h.chain.dropped,
    h.chain.slots⟩,⟨h.jobs.owner,h.jobs.home,h.jobs.queued,h.jobs.failed⟩,
    ⟨h.tasks.held,h.tasks.todo,h.tasks.pending,h.tasks.goal,h.tasks.fresh,h.tasks.first⟩⟩

/-- A new signature: its id is new, so nothing is stored under it. -/
theorem Sound.signs (h : Sound w) (ht : Traced w) {goal : Goal} {a : Attempt} {left : Nat}
    {signed : List Uuid} (hid : a.id ∉ w.signed) (hair : (w.tasks p).onAir = none)
    (hgoal : ∀ f ∈ goal.inFlight, a.owner = f.owner ∧ f ∈ (w.tasks p).inFlight) :
    Sound ({ w with signed := signed }.setTask p (.binding goal a left)) := by
  have hnone : ∀ r ∈ w.store.txAttempts.rows, r.id ≠ a.id := by
    intro r hr he
    obtain ⟨b,hb,hbid,-⟩ := ht.rows r hr
    exact hid (he ▸ hbid ▸ ht.ids b hb)
  have hin : ∀ f ∈ (Activity.binding goal a left).inFlight, f ∈ (w.tasks p).inFlight :=
    fun f hf => (hgoal f hf).2
  refine ⟨⟨h.chain.mined,h.chain.delivered,h.chain.included,h.chain.replaced,h.chain.dropped,
    h.chain.slots⟩,⟨h.jobs.owner,h.jobs.home,h.jobs.queued,h.jobs.failed⟩,?_,?_,?_,?_,?_,?_⟩
  · intro q f hf
    rw [World.tasks_setTask] at hf
    split at hf
    · exact h.tasks.held p f (hin f hf)
    · exact h.tasks.held q f hf
  · intro q g hg
    rw [World.tasks_setTask] at hg
    split at hg
    · cases hgf : goal.inFlight with
      | none => simp [Activity.todo,Activity.inFlight,hgf] at hg
      | some f =>
        have hf : f ∈ (Activity.binding goal a left).inFlight := hgf
        rw [Activity.todo_of_inFlight hf] at hg
        refine h.tasks.todo p g ?_
        rwa [Activity.todo_of_inFlight (hin f hf)]
    · exact h.tasks.todo q g hg
  · intro q b hb
    rw [World.tasks_setTask] at hb
    split at hb
    · -- the id is new, so no row is its
      rw [← Option.some.inj hb]
      exact fun r hr he => absurd he (hnone r hr)
    · exact h.tasks.pending q b hb
  · intro q goal' b left' hq
    rw [World.tasks_setTask] at hq
    split at hq
    · cases hq
      exact fun f hf => (hgoal f hf).1
    · exact h.tasks.goal q goal' b left' hq
  · intro q f hf hfr r hr hs hair'
    rw [World.tasks_setTask] at hf hair'
    split at hf
    · next hq =>
      subst hq
      refine h.tasks.fresh q f (hin f hf) hfr r hr hs ?_
      rw [hair]
      exact fun hx => by cases hx
    · next hq =>
      rw [if_neg hq] at hair'
      exact h.tasks.fresh q f hf hfr r hr hs hair'
  · intro q b left' hq hex
    rw [World.tasks_setTask] at hq
    split at hq
    · cases hq
      obtain ⟨r,hr,he⟩ := hex
      exact absurd he (hnone r hr)
    · exact h.tasks.first q b left' hq hex

end Tasks

section Steps

variable {w : World} {p : PairKey}

/-- What a round writes. -/
theorem Sound.written (h : Sound w) (ht : Traced w) {goal : Goal} {a : Attempt} {left : Nat}
    (hp : w.tasks p = .binding goal a left) (r : Round) : Sound (w.written a goal.kind r) := by
  unfold World.written
  rcases r.run_commits w.store w.epoch a goal.kind with ⟨hc,hs⟩ | ⟨hc,hb⟩
  · rw [hs,hc]
    exact h
  · rw [hc]
    exact h.commits ht hp hb

theorem Sound.retries (h : Sound w) {goal : Goal} {a : Attempt} {left : Nat}
    (hp : w.tasks p = .binding goal a left) (n : Nat) :
    Sound (w.setTask p (.binding goal a n)) := by
  have hsame : ∀ q, ((w.setTask p (.binding goal a n)).tasks q).pending = (w.tasks q).pending ∧
      ((w.setTask p (.binding goal a n)).tasks q).inFlight = (w.tasks q).inFlight ∧
      ((w.setTask p (.binding goal a n)).tasks q).todo = (w.tasks q).todo ∧
      ((w.setTask p (.binding goal a n)).tasks q).onAir = (w.tasks q).onAir := by
    intro q
    rw [w.tasks_setTask]
    split
    · next hq =>
      subst hq
      rw [hp]
      exact ⟨rfl,rfl,rfl,rfl⟩
    · exact ⟨rfl,rfl,rfl,rfl⟩
  have hbind : ∀ q goal' b m, (w.setTask p (.binding goal a n)).tasks q = .binding goal' b m →
      ∃ m', w.tasks q = .binding goal' b m' := by
    intro q goal' b m hq
    rw [w.tasks_setTask] at hq
    split at hq
    · next hqp =>
      cases hq
      exact ⟨left,by rw [hqp]; exact hp⟩
    · exact ⟨m,hq⟩
  refine ⟨h.chain.setTask p _,h.jobs.setTask p _,?_,?_,?_,?_,?_,?_⟩
  · exact fun q f hf => h.tasks.held q f ((hsame q).2.1 ▸ hf)
  · exact fun q g hg => h.tasks.todo q g ((hsame q).2.2.1 ▸ hg)
  · exact fun q b hb => h.tasks.pending q b ((hsame q).1 ▸ hb)
  · intro q goal' b m hq
    obtain ⟨m',hq⟩ := hbind q goal' b m hq
    exact h.tasks.goal q goal' b m' hq
  · intro q f hf hfr r hr hs hair
    exact h.tasks.fresh q f ((hsame q).2.1 ▸ hf) hfr r hr hs ((hsame q).2.2.2 ▸ hair)
  · intro q b m hq
    obtain ⟨m',hq⟩ := hbind q .execute b m hq
    exact h.tasks.first q b m' hq

/-- The attempt is stored and on the air; whatever else is at a fresh nonce is harmless. -/
theorem Sound.bound (h : Sound w) (ht : Traced w) {goal : Goal} {a : Attempt} {left : Nat}
    (hp : w.tasks p = .binding goal a left) (ha : a ∈ w.bound) :
    Sound (w.setTask p (.sending (goal.bound a))) := by
  have halive : w.store.Alive a.id := h.tasks.pending p a (by rw [hp]; rfl)
  have hin : (w.tasks p).inFlight = goal.inFlight := by
    rw [hp]
    rfl
  have hmore : ∀ f ∈ goal.inFlight, ∀ x ∈ f.attempts ++ [a], w.store.Alive x.id := by
    intro f hf x hx
    rcases List.mem_append.mp hx with hx | hx
    · exact (h.tasks.held p f (hin ▸ hf)).alive x hx
    · rw [List.mem_singleton.mp hx]
      exact halive
  have howner : ∀ f ∈ goal.inFlight, ∃ x ∈ f.attempts ++ [a], x.owner = f.owner := by
    intro f hf
    obtain ⟨x,hx,ho⟩ := (h.tasks.held p f (hin ▸ hf)).owner
    exact ⟨x,List.mem_append_left _ hx,ho⟩
  have hfresh : ∀ f ∈ goal.inFlight, f.neverAccepted = true → ∀ r ∈ w.store.txAttempts.rows,
      r.slot = p.slot f.nonce → w.Harmless r := by
    intro f hf hfr r hr hs
    refine h.tasks.fresh p f (hin ▸ hf) hfr r hr hs ?_
    rw [hp]
    exact fun hx => by cases hx
  refine h.setTask rfl ?_ ?_ ?_
  · rintro f ⟨⟩
    cases goal with
    | execute =>
      refine ⟨?_,⟨a,InFlight.last_mem _,rfl⟩,fun _ => rfl⟩
      intro x hx
      rw [show x = a by simpa [Goal.bound,InFlight.attempts] using hx]
      exact halive
    | replace f => exact ⟨hmore f rfl,howner f rfl,(h.tasks.held p f (by rw [hin]; rfl)).todo⟩
    | cancel f => exact ⟨hmore f rfl,howner f rfl,(h.tasks.held p f (by rw [hin]; rfl)).todo⟩
  · intro g hg
    refine h.tasks.todo p g ?_
    rw [hp]
    cases goal <;> exact hg
  · rintro f ⟨⟩ hfr r hr hs _
    cases goal with
    | execute =>
      -- the attempt is committed, and nothing at its nonce was delivered while it was bound
      obtain ⟨x,hx,hid,-⟩ := ht.stored a ha
      refine h.tasks.first p a left hp ⟨x,hx,hid⟩ r hr (hs.trans ?_)
      exact (ht.pending p a (by rw [hp]; rfl)).2.1.symm
    | replace f => exact hfresh f rfl hfr r hr hs
    | cancel f => exact hfresh f rfl hfr r hr hs

theorem Sound.round (h : Sound w) (ht : Traced w) {goal : Goal} {a : Attempt} {left : Nat}
    {r : Round} (hp : w.tasks p = .binding goal a left)
    (hask : Event.AsksOwn w (.task p (.round r))) : Sound (w.round p goal a left r) := by
  have hw := h.written ht hp r
  obtain ⟨htw,hin⟩ := ht.written goal.kind (by rw [hp]; rfl) hask
  have hp' : (w.written a goal.kind r).tasks p = .binding goal a left := hp
  have hnot : ∀ e, Sound ((w.written a goal.kind r).setTask p (goal.notBound e)) := by
    intro e
    rcases goal.notBound_cases e with hr | ⟨f,hf,hfrom⟩
    · exact hw.rests hr
    · exact hw.moves (by rw [hp']; exact hf) (by rw [hp']; rfl) hfrom
  unfold World.round
  dsimp only
  split
  · next hr => exact (hw.setNextNonce p _).bound (htw.setNextNonce p _) hp (hin hr)
  · exact hnot _
  · split
    · exact hnot _
    · exact hw.retries hp' _

theorem Activity.airs_cases {t : Activity} {k : Slot} {txHash : B256} (h : (k,txHash) ∈ t.airs) :
    ∃ f, t = .sending f ∧ f.last.txHash = txHash := by
  cases t with
  | sending f => exact ⟨f,rfl,(congrArg Prod.snd (List.mem_singleton.mp h)).symm⟩
  | _ => cases h

/-- The row of the newest attempt. -/
theorem Sound.last_row (h : Sound w) (ht : Traced w) {f : InFlight}
    (hf : f ∈ (w.tasks p).inFlight) :
    ∃ r ∈ w.store.txAttempts.rows, r.id = f.last.id ∧ r.slot = f.last.slot ∧
      r.txHash = f.last.txHash ∧ r.jobId = f.last.owner.jobId ∧ r.status ≠ .dropped := by
  obtain ⟨r,hr,hid,hs,hh,hj⟩ := (ht.held p f hf f.last f.last_mem).row ht
  exact ⟨r,hr,hid,hs.trans (ht.last_slot hf).symm,hh,hj,
    (h.tasks.held p f hf).alive f.last f.last_mem r hr hid⟩

/-- Bytes reach a node. Unless they can never be mined, no attempt that is harmless is theirs. -/
theorem Sound.reach (h : Sound w) {r₀ : AttemptRow} (hr₀ : r₀ ∈ w.store.txAttempts.rows)
    (hdrop : r₀.txHash ∉ w.dead → r₀.status ≠ .dropped)
    (hfresh : r₀.txHash ∉ w.dead → ∀ q, ∀ f ∈ (w.tasks q).inFlight, f.neverAccepted = true →
      r₀.slot = q.slot f.nonce → (w.tasks q).onAir = some r₀.id)
    (hfirst : r₀.txHash ∉ w.dead → ∀ q a left, w.tasks q = .binding .execute a left →
      r₀.slot ≠ a.slot) :
    Sound { w with delivered := (r₀.slot,r₀.txHash) :: w.delivered } := by
  have hother : ∀ r ∈ w.store.txAttempts.rows, (r = r₀ → r₀.txHash ∈ w.dead) → w.Harmless r →
      World.Harmless { w with delivered := (r₀.slot,r₀.txHash) :: w.delivered } r := by
    intro r hr hne hharm
    by_cases hrr : r = r₀
    · exact .inr (hrr ▸ hne hrr)
    · refine hharm.imp_left fun hd hd' => ?_
      rcases List.mem_cons.mp hd' with hx | hx
      · exact hrr (hash_unique hr hr₀ (congrArg Prod.snd hx))
      · exact hd hx
  refine ⟨⟨?_,?_,h.chain.included,h.chain.replaced,?_,h.chain.slots⟩,
    ⟨h.jobs.owner,h.jobs.home,h.jobs.queued,h.jobs.failed⟩,
    h.tasks.held,h.tasks.todo,h.tasks.pending,h.tasks.goal,?_,?_⟩
  · intro k hash hm
    obtain ⟨hd,hn⟩ := h.chain.mined k hash hm
    exact ⟨List.mem_cons_of_mem _ hd,hn⟩
  · intro k hash hd
    rcases List.mem_cons.mp hd with hx | hd
    · obtain ⟨rfl,rfl⟩ := Prod.mk.inj hx
      exact ⟨r₀,hr₀,rfl,rfl⟩
    · exact h.chain.delivered k hash hd
  · -- only the row of the bytes loses its harmlessness, and only if they can be mined
    intro r hr hd
    refine hother r hr ?_ (h.chain.dropped r hr hd)
    rintro rfl
    by_contra hlive
    exact hdrop hlive hd
  · intro q f hf hfr r hr hs hair
    refine hother r hr ?_ (h.tasks.fresh q f hf hfr r hr hs hair)
    rintro rfl
    by_contra hlive
    exact hair (hfresh hlive q f hf hfr hs)
  · intro q a left hq hex r hr hs
    refine hother r hr ?_ (h.tasks.first q a left hq hex r hr hs)
    rintro rfl
    by_contra hlive
    exact hfirst hlive q a left hq hs

/-- The bytes being sent reach a node. They have a row that is not dropped, at the sender's own
nonce. -/
theorem Sound.deliver (h : Sound w) (ht : Traced w) {f : InFlight}
    (hp : w.tasks p = .sending f) :
    Sound { w with delivered := (f.last.slot,f.last.txHash) :: w.delivered } := by
  have hf : f ∈ (w.tasks p).inFlight := by
    rw [hp]
    rfl
  obtain ⟨r₀,hr₀,hid₀,hs₀,hh₀,-,hd₀⟩ := h.last_row ht hf
  have hpair : ∀ q n, r₀.slot = q.slot n → q = p := fun q n hs =>
    PairKey.slot_pair (hs.symm.trans (hs₀.trans (ht.last_slot hf)))
  rw [← hs₀,← hh₀]
  refine h.reach hr₀ (fun _ => hd₀) (fun _ q f' hf' _ hs => ?_) (fun _ q a left hq hs => ?_)
  · obtain rfl := hpair q _ hs
    rw [hp,hid₀]
    rfl
  · have hb := (ht.pending q a (by rw [hq]; rfl)).2.1
    obtain rfl := hpair q _ (hs.trans hb)
    rw [hq] at hp
    cases hp

/-- Bytes of an earlier send reach a node after all. -/
theorem Sound.arrive (h : Sound w) (ht : Traced w) (ha : Aired w) {nonce : Nat} {txHash : B256}
    (hsent : (p.slot nonce,txHash) ∈ w.sent) (hfree : w.mined (p.slot nonce) = none)
    (htold : Event.Told w (.task p (.arrive nonce txHash))) :
    Sound { w with delivered := (p.slot nonce,txHash) :: w.delivered } := by
  obtain ⟨b,hb,hslot,hhash⟩ := ha _ hsent
  obtain ⟨r₀,hr₀,-,hof⟩ := ht.stored b hb
  have hs₀ : r₀.slot = p.slot nonce := hof.slot.trans hslot
  have hh₀ : r₀.txHash = txHash := hof.txHash.trans hhash
  have htold' : r₀.txHash ∉ w.dead → (∀ r ∈ w.store.txAttempts.rows, r.txHash = txHash →
      r.status ≠ .dropped) ∧
        ((w.tasks p).opens = some nonce → (p.slot nonce,txHash) ∈ (w.tasks p).airs) := by
    intro hlive
    exact htold hfree (hh₀ ▸ hlive)
  have hpair : ∀ q n, r₀.slot = q.slot n → q = p ∧ n = nonce := by
    intro q n hs
    have hk := hs.symm.trans hs₀
    exact ⟨PairKey.slot_pair hk,congrArg Slot.nonce hk⟩
  rw [← hs₀,← hh₀]
  refine h.reach hr₀ (fun hlive => (htold' hlive).1 r₀ hr₀ hh₀) (fun hlive q f hf hfr hs => ?_)
    (fun hlive q a left hq hs => ?_)
  · obtain ⟨rfl,hn⟩ := hpair q _ hs
    -- while the nonce is taken for never accepted, what arrives is being sent
    have hair := (htold' hlive).2 (hn ▸ Activity.opens_of_fresh hf hfr)
    obtain ⟨g,hg,hgh⟩ := Activity.airs_cases hair
    have hin : g ∈ (w.tasks q).inFlight := by
      rw [hg]
      rfl
    obtain ⟨r,hr,hid,-,hh,-⟩ := h.last_row ht hin
    obtain rfl := hash_unique hr hr₀ (hh.trans (hgh.trans hh₀.symm))
    rw [hg,hid]
    rfl
  · have hb := (ht.pending q a (by rw [hq]; rfl)).2.1
    obtain ⟨rfl,hn⟩ := hpair q _ (hs.trans hb)
    have hopen : (w.tasks q).opens = some nonce := by
      rw [hq,← hn]
      rfl
    -- nothing is being sent while a first attempt is bound
    have hair := (htold' hlive).2 hopen
    rw [hq] at hair
    cases hair

/-- A stateless rejection is only given for bytes that are not mined. -/
theorem Sound.kills (h : Sound w) (ht : Traced w) {f : InFlight} {a : Answer}
    (hp : w.tasks p = .sending f) (ha : a.Possible w f) :
    Sound { w with dead := a.kills f.last.txHash ++ w.dead } := by
  have hf : f ∈ (w.tasks p).inFlight := by
    rw [hp]
    rfl
  have hmore : ∀ r, w.Harmless r →
      World.Harmless { w with dead := a.kills f.last.txHash ++ w.dead } r :=
    fun r hr => hr.imp_right fun hd => List.mem_append_right _ hd
  refine ⟨⟨?_,h.chain.delivered,h.chain.included,h.chain.replaced,?_,h.chain.slots⟩,
    ⟨h.jobs.owner,h.jobs.home,h.jobs.queued,h.jobs.failed⟩,
    h.tasks.held,h.tasks.todo,h.tasks.pending,h.tasks.goal,?_,?_⟩
  · intro k hash hm
    obtain ⟨hd,hn⟩ := h.chain.mined k hash hm
    refine ⟨hd,fun hx => ?_⟩
    rcases List.mem_append.mp hx with hx | hx
    · -- the hash is that of the bytes just rejected, so its slot is theirs
      obtain ⟨r,hr,rfl,hrh⟩ := h.chain.delivered k hash hd
      obtain ⟨r₀,hr₀,-,hs₀,hh₀,-⟩ := h.last_row ht hf
      cases a with
      | error kind text =>
        cases kind with
        | deterministic =>
          obtain rfl : hash = f.last.txHash := List.mem_singleton.mp hx
          obtain rfl := hash_unique hr hr₀ (hrh.trans hh₀.symm)
          exact ha rfl (hs₀ ▸ hm)
        | _ => cases hx
      | _ => cases hx
    · exact hn hx
  · exact fun r hr hd => hmore r (h.chain.dropped r hr hd)
  · exact fun q f' hf' hfr r hr hs hair => hmore r (h.tasks.fresh q f' hf' hfr r hr hs hair)
  · exact fun q b left hq hex r hr hs => hmore r (h.tasks.first q b left hq hex r hr hs)

theorem InFlight.onReceipt_inFlight (f : InFlight) {hash : B256} {usable : Bool} {t : Activity}
    (h : f.onReceipt hash usable = some t) : t.inFlight = none := by
  unfold InFlight.onReceipt at h
  split at h
  · cases h
    unfold InFlight.done
    split <;> rfl
  · cases h

/-- An answer that tells either clears the flag, ends the nonce, or kills the bytes. -/
theorem Answer.tells_cases {f : InFlight} {a : Answer} (h : a.tells f = true) (chain : ChainKind) :
    (∀ f' ∈ (f.onAnswer chain a).inFlight, f'.neverAccepted = false) ∨
      f.last.txHash ∈ a.kills f.last.txHash := by
  cases a with
  | accepted =>
    left
    rintro f' ⟨⟩
    rfl
  | receipt hash usable =>
    left
    intro f' hf'
    simp only [Answer.tells] at h
    obtain ⟨t,ht⟩ := Option.isSome_iff_exists.mp h
    have hnext : f.onAnswer chain (.receipt hash usable) = t := by
      show (f.onReceipt hash usable).getD _ = t
      rw [ht]
      rfl
    rw [hnext,f.onReceipt_inFlight ht] at hf'
    cases hf'
  | notDelivered => cases h
  | error kind text =>
    cases kind with
    | alreadyKnown =>
      left
      rintro f' ⟨⟩
      rfl
    | acceptedPending =>
      left
      rintro f' ⟨⟩
      rfl
    | deterministic => exact .inr List.mem_cons_self
    | _ => cases h

theorem Sound.answer (h : Sound w) (ht : Traced w) {f : InFlight} {a : Answer}
    (chain : ChainKind) (hp : w.tasks p = .sending f) (ha : a.Possible w f)
    (htold : f.neverAccepted = true → (f.last.slot,f.last.txHash) ∈ w.delivered →
      a.tells f = true) : Sound (w.answer chain p f a) := by
  have hf : f ∈ (w.tasks p).inFlight := by
    rw [hp]
    rfl
  have hfrom := f.onAnswer_from chain a
  refine (h.kills ht hp ha).goes hf hfrom ?_
  intro f' hf' hfr r hr hs
  have hfresh := (hfrom.inFlight f' hf').fresh hfr
  have hmore : ∀ r, w.Harmless r →
      World.Harmless { w with dead := a.kills f.last.txHash ++ w.dead } r :=
    fun r hr => hr.imp_right fun hd => List.mem_append_right _ hd
  by_cases hid : r.id = f.last.id
  · -- the bytes on the air: undelivered, or the driver was told
    obtain ⟨r₀,hr₀,hid₀,hs₀,hh₀,-⟩ := h.last_row ht hf
    obtain rfl := id_unique hr hr₀ (hid.trans hid₀.symm)
    by_cases hd : (f.last.slot,f.last.txHash) ∈ w.delivered
    · rcases Answer.tells_cases (htold hfresh hd) chain with hx | hx
      · rw [hx f' hf'] at hfr
        cases hfr
      · refine .inr (List.mem_append_left _ ?_)
        rw [hh₀]
        exact hx
    · refine .inl ?_
      rw [hs₀,hh₀]
      exact hd
  · refine hmore r (h.tasks.fresh p f hf hfresh r hr hs ?_)
    rw [hp]
    exact fun hx => hid (Option.some.inj hx).symm

/-- A void: acknowledged, it leaves the task without the nonce; refused, as it was. -/
theorem Sound.void (h : Sound w) (ht : Traced w) {f : InFlight} {mode : VoidMode}
    {disposition : VoidDisposition} {call : Call} (now : Nat)
    (hp : w.tasks p = .voiding f mode disposition) (htold : call.told = true) :
    Sound (w.void p f mode disposition call now) := by
  have hf : f ∈ (w.tasks p).inFlight := by
    rw [hp]
    rfl
  have hfresh : f.neverAccepted = true := by
    have hon := ht.honest p
    rw [hp] at hon
    exact hon
  have htodo : f.todo = none := (h.tasks.held p f hf).todo hfresh
  have hharm : ∀ r ∈ w.store.txAttempts.rows, r.slot = f.last.slot → w.Harmless r := by
    intro r hr hs
    refine h.tasks.fresh p f hf hfresh r hr (hs.trans (ht.last_slot hf)) ?_
    rw [hp]
    exact fun hx => by cases hx
  obtain ⟨r₀,hr₀,-,hs₀,-,hj₀,hd₀⟩ := h.last_row ht hf
  have hvoided : ∀ s t, voidBinding w.store w.epoch f.last mode disposition now = .ok s →
      Activity.Rests t → Sound (World.setTask { w with store := s } p t) := by
    intro s t hs hrest
    refine (h.rests (p := p) hrest).voids (p := p) (n := f.nonce) (ht.rests (p := p) hrest)
      ⟨voidBinding_spec hs,ht.last_slot hf,?_,hharm,r₀,hr₀,hs₀,hj₀,hd₀⟩
    rw [w.tasks_setTask,if_pos rfl]
    exact hrest
  have hback : Sound (w.setTask p (.polling f)) :=
    h.moves hf (by rw [hp]; rfl) (.polling (.rfl' f))
  have hdone : f.done.Rests := by
    unfold InFlight.done
    rw [htodo]
    exact Activity.rests_idle
  have hdown : Sound (w.setTask p .down) := h.rests Activity.rests_down
  unfold World.void
  cases call with
  | lost e =>
    -- the driver would go on polling a nonce that is given back
    cases htold
  | refused e =>
    cases e with
    | fenced mine => exact hdown
    | _ => exact hback
  | answered =>
    cases hv : voidBinding w.store w.epoch f.last mode disposition now with
    | error e =>
      cases e with
      | fenced mine => exact hdown
      | _ => exact hback
    | ok s =>
      simp only [Call.answer]
      split
      · exact (hvoided s f.done hv hdone).setNextNonce p f.nonce
      · rw [htodo]
        exact hvoided s .down hv Activity.rests_down

theorem Sound.resume (h : Sound w) {group : List Attempt} {todo : List (List Attempt)}
    (hg : ∀ a ∈ group, w.store.Alive a.id) (ht : ∀ g ∈ todo, ∀ a ∈ g, w.store.Alive a.id)
    (chain : ChainKind) : Sound (w.setTask p (resume chain group todo)) := by
  obtain ⟨hfree,-,htodo⟩ := resume_pending chain group todo
  rcases resume_cases chain group todo with hr | ⟨f,hr,hacc,-,-,hown,hmem⟩
  · rw [hr]
    exact h.setTask rfl (by intro f hf; cases hf) ht (by intro f hf; cases hf)
  · refine h.setTask hfree ?_ (by rwa [htodo]) ?_
    · intro f' hf'
      rw [hr] at hf'
      obtain rfl : f = f' := Option.some.inj hf'
      refine ⟨?_,hown,fun hx => by rw [hacc] at hx; cases hx⟩
      intro a ha
      obtain ⟨b,hb,rfl⟩ := hmem a ha
      exact hg b hb
    · intro f' hf' hfr
      rw [hr] at hf'
      obtain rfl : f = f' := Option.some.inj hf'
      rw [hacc] at hfr
      cases hfr

theorem Store.alive_demote (s : Store) (a : Attempt) {id : Uuid} (h : s.Alive id) :
    (demoteInclusion s a).2.Alive id := by
  obtain ⟨F,hF,hm⟩ := (demoteInclusion_kept s a).attempts
  intro x hx hid hd
  rw [hm] at hx
  obtain ⟨r,hr,rfl⟩ := List.mem_map.mp hx
  exact h r hr ((hF.same r).id.symm.trans hid) ((hF.dropped r).mp hd)

theorem Sound.recoverNext (h : Sound w) {group : List Attempt} {todo : List (List Attempt)}
    (hp : w.tasks p = .recovering (group :: todo)) (chain : ChainKind) (l : Look) :
    Sound (w.recoverNext chain p group todo l) := by
  have hall : ∀ g ∈ group :: todo, ∀ a ∈ g, w.store.Alive a.id := by
    intro g hg
    exact h.tasks.todo p g (by rw [hp]; exact hg)
  have hg := hall group List.mem_cons_self
  have ht : ∀ g ∈ todo, ∀ a ∈ g, w.store.Alive a.id :=
    fun g hg => hall g (List.mem_cons_of_mem _ hg)
  unfold World.recoverNext
  split
  · exact h.resume hg ht chain
  · next a _ =>
    cases l with
    | receipt => exact h.setTask rfl (by intro f hf; cases hf) ht (by intro f hf; cases hf)
    | failed => exact h.rests Activity.rests_down
    | gone call =>
      have hdem := h.demote a
      cases call with
      | answered =>
        exact hdem.resume (fun b hb => Store.alive_demote _ a (hg b hb))
          (fun g hg b hb => Store.alive_demote _ a (ht g hg b hb)) chain
      | lost e => exact hdem.rests Activity.rests_down
      | refused e => exact h.rests Activity.rests_down

theorem Sound.recover (h : Sound w) (p : PairKey) : Sound (w.recover p) := by
  unfold World.recover
  split
  · next live hl =>
    refine h.setTask rfl (by intro f hf; cases hf) ?_ (by intro f hf; cases hf)
    intro g hg a ha r hr hid hd
    obtain ⟨n,hn⟩ := byNonce_mem hg
    obtain ⟨r',hr',hlive,-,-,hrow⟩ := loadLive_mem hl (hn a ha).1
    obtain rfl := id_unique hr hr' (hid.trans (attemptRow_ok hrow).2.1)
    rcases hlive with hx | hx <;> rw [hx] at hd <;> cases hd
  · exact h

theorem Sound.resigns (h : Sound w) (ht : Traced w) {f : InFlight} {t : Activity} {goal : Goal}
    {signed : Option Signature} (hf : f ∈ (w.tasks p).inFlight) (hair : (w.tasks p).onAir = none)
    (hgoal : goal.inFlight = some f) (hid : ∀ g ∈ signed, g.id ∉ w.signed)
    (hre : f.Resigns p goal signed t) : Sound (w.sign p t signed) := by
  rcases hre with rfl | ⟨g,hg,purpose,g',he,rfl⟩
  · have hw := h.moves hf hair (.polling (.rfl' f))
    exact ⟨⟨hw.chain.mined,hw.chain.delivered,hw.chain.included,hw.chain.replaced,
      hw.chain.dropped,hw.chain.slots⟩,⟨hw.jobs.owner,hw.jobs.home,hw.jobs.queued,hw.jobs.failed⟩,
      hw.tasks.held,hw.tasks.todo,hw.tasks.pending,hw.tasks.goal,hw.tasks.fresh,hw.tasks.first⟩
  · refine h.signs ht ?_ hair ?_
    · show g'.id ∉ w.signed
      rw [he]
      exact hid g hg
    · intro f' hf'
      rw [hgoal] at hf'
      cases hf'
      exact ⟨rfl,hf⟩

theorem Sound.ensures (h : Sound w) (p : PairKey) :
    Sound { w with store := ensurePair w.store p } :=
  h.jobsOnly (G := fun j => j) (fun _ => rfl) ⟨rfl,rfl,rfl,rfl⟩ (List.map_id' _).symm
    (fun _ _ hq => hq) (fun _ _ hf => .inl hf)

theorem Sound.turn (h : Sound w) (ht : Traced w) (ha : Aired w) {chains : ChainId → ChainKind} {i : Input}
    (hi : i.Possible w p) (htold : Event.Told w (.task p i)) : Sound (w.turn chains p i) := by
  have htakes := w.turn_takes chains p i
  generalize w.turn chains p i = w' at htakes ⊢
  cases htakes with
  | unfit => exact h
  | @execute owner signed hp =>
    cases signed with
    | error e => exact h.rests Activity.rests_signerUnavailable
    | ok g => exact h.signs ht (hi g rfl) (by rw [hp]; rfl) (by intro f hf; cases hf)
  | round hp => exact h.round ht hp htold
  | deliver hp => exact h.deliver ht hp
  | arrive hs hm => exact h.arrive ht ha hs hm htold
  | @answer a f hp =>
    have hf : f ∈ (w.tasks p).inFlight := by
      rw [hp]
      rfl
    exact h.answer ht _ hp (hi f hf) (htold f hf)
  | @lookBack found f fresh parks hp =>
    have hon := ht.honest p
    rw [hp] at hon
    exact h.moves (by rw [hp]; rfl) (by rw [hp]; rfl) (f.onNonceTooLow_from parks found hon)
  | @poll found f hp => exact h.moves (by rw [hp]; rfl) (by rw [hp]; rfl) (f.poll_from found)
  | @escalate d f hp hf => exact h.moves (by rw [hp]; rfl) (by rw [hp]; rfl) (f.escalate_from _ d)
  | @replace signed f hp =>
    exact h.resigns ht (by rw [hp]; rfl) (by rw [hp]; rfl) rfl hi (f.replace_resigns _ p signed)
  | @cancel signed f hp =>
    exact h.resigns ht (by rw [hp]; rfl) (by rw [hp]; rfl) rfl hi (f.cancel_resigns p signed)
  | @void call now f mode disposition hp => exact h.void ht now hp htold
  | recover hp => exact h.recover p
  | @recoverNext l group todo hp => exact h.recoverNext hp _ l
  | recoverFailed hp => exact (h.ensures p).rests Activity.rests_down
  | recoverDone hp => exact ((h.ensures p).setNextNonce p _).rests Activity.rests_idle
  | resume hp => exact h.rests Activity.rests_idle
  | stop hp => exact h.rests Activity.rests_down

theorem Sound.step (h : Sound w) (ht : Traced w) (ha : Aired w) {chains : ChainId → ChainKind} {e : Event}
    (he : e.Possible w) (htold : e.Told w) : Sound (w.step chains e) := by
  cases e with
  | op o => exact h.op he
  | mine k m => exact h.mine he
  | restart =>
    refine ⟨⟨h.chain.mined,h.chain.delivered,h.chain.included,h.chain.replaced,h.chain.dropped,
      h.chain.slots⟩,⟨h.jobs.owner,h.jobs.home,h.jobs.queued,h.jobs.failed⟩,?_,?_,?_,?_,?_,?_⟩
    · intro p f hf; cases hf
    · intro p g hg; cases hg
    · intro p a ha; cases ha
    · intro p goal a left hp; cases hp
    · intro p f hf; cases hf
    · intro p a left hp; cases hp
  | task p i => exact h.turn ht ha he htold

theorem Sound.init : Sound World.init := by
  refine ⟨⟨?_,?_,?_,?_,?_,?_⟩,⟨?_,?_,?_,?_⟩,?_,?_,?_,?_,?_,?_⟩
  · intro k hash hm; cases hm
  · intro k hash hd; cases hd
  · intro r hr; cases hr
  · intro r hr; cases hr
  · intro r hr; cases hr
  · intro r hr; cases hr
  · intro r hr; cases hr
  · intro r hr; cases hr
  · intro j hj; cases hj
  · intro j hj; cases hj
  · intro p f hf; cases hf
  · intro p g hg; cases hg
  · intro p a ha; cases ha
  · intro p goal a left hp; cases hp
  · intro p f hf; cases hf
  · intro p a left hp; cases hp

end Steps

/-- The driver, told of what it relies on. -/
def toldDriver (chains : ChainId → ChainKind) : Machine World Event :=
  (driver chains).restrict fun w e => e.Told w

instance (chains : ChainId → ChainKind) (w : World) (e : Event) :
    Decidable ((toldDriver chains).allowed w e) :=
  inferInstanceAs (Decidable (e.Possible w ∧ e.Told w))

theorem Sound.reaches {chains : ChainId → ChainKind} {w : World}
    (h : (toldDriver chains).Reaches World.init w) : Traced w ∧ Sound w := by
  have hall : Traced w ∧ Aired w ∧ Sound w := by
    refine h.invariant (I := fun w => Traced w ∧ Aired w ∧ Sound w) ⟨.init,.init,.init⟩ ?_
    rintro w e ⟨ht,ha,hs⟩ ⟨hp,htold⟩
    have ht' : Traced (w.step chains e) := ht.step hp htold.asksOwn
    exact ⟨ht',ha.step ht',hs.step ht ha hp htold⟩
  exact ⟨hall.1,hall.2.2⟩

/-- Of all attempts that execute a job, over all nonces, at most one is ever mined, and
none once the job has failed; a job is given back only when no attempt at the nonce
can have been mined. -/
structure ExecutesOnce (w : World) : Prop where
  once : ∀ j ∈ w.store.jobs.rows, ∀ r r' : AttemptRow, r.Executes w.store j →
    r'.Executes w.store j → w.Mines r → w.Mines r' → r = r'
  failed : ∀ j ∈ w.store.jobs.rows, j.status = .failed → ∀ r : AttemptRow,
    r.Executes w.store j → ¬ w.Mines r
  givesBack : ∀ p f disposition, w.tasks p = .voiding f .nonceTakenByForeignTx disposition →
    ∀ r ∈ w.store.txAttempts.rows, r.slot = f.last.slot → w.Harmless r ∧ ¬ w.Mines r

theorem executes_once {chains : ChainId → ChainKind} {w : World}
    (h : (toldDriver chains).Reaches World.init w) : ExecutesOnce w := by
  obtain ⟨ht,hs⟩ := Sound.reaches h
  have hlive : ∀ r ∈ w.store.txAttempts.rows, w.Mines r → r.status ≠ .dropped :=
    fun r hr hm hd => hs.chain.harmless (hs.chain.dropped r hr hd) hm
  refine ⟨?_,?_,?_⟩
  · rintro j - r r' ⟨hr,hi,-⟩ ⟨hr',hi',-⟩ hm hm'
    have hslot := hs.jobs.home r hr r' hr' (hlive r hr hm) (hlive r' hr' hm') j.id hi hi'
    unfold World.Mines at hm hm'
    rw [hslot] at hm
    have hhash : r.txHash = r'.txHash := Mined.ours.inj (Option.some.inj (hm.symm.trans hm'))
    exact hash_unique hr hr' hhash
  · rintro j hj hf r ⟨hr,hi,hp⟩ hm
    rcases hs.jobs.failed j hj hf r hr hi hp with hd | ⟨m,hm',hne⟩
    · exact hlive r hr hm hd
    · exact hne (Option.some.inj (hm'.symm.trans hm))
  · intro p f disposition hp r hr hk
    have hf : f ∈ (w.tasks p).inFlight := by
      rw [hp]
      rfl
    have hfresh : f.neverAccepted = true := by
      have hon := ht.honest p
      rw [hp] at hon
      exact hon
    have hharm : w.Harmless r := by
      refine hs.tasks.fresh p f hf hfresh r hr (hk.trans (ht.last_slot hf)) ?_
      rw [hp]
      exact fun hx => by cases hx
    exact ⟨hharm,hs.chain.harmless hharm⟩

/-- Someone else takes nonce 0, so job 1 is given back; at nonce 1 it is mined, and the
next process finds it. -/
def foreignNonceRun : List Event :=
  let p := Sample.pair
  Sample.boot ++ [.op (.insertJob 1 Sample.request),
    .task p (.execute (.job 1) (.ok (Sample.signature 3 3))),.task p Sample.round,
    .mine (p.slot 0) .foreign,.task p (.answer (.error .nonceTooLow "nonce too low")),
    .task p (.lookBack none),.task p (.void .answered 0),.task p .recover,
    .task p (.recoverDone (some 1)),.task p (.execute (.job 1) (.ok (Sample.signature 4 4))),
    .task p Sample.round,.task p .deliver,.mine (p.slot 1) (.ours 4),
    .task p (.answer .accepted),.restart,.task p .recover,.task p (.recoverNext .failed),
    .task p (.answer (.error .alreadyKnown "already known")),.task p (.poll (some 4)),
    .op (.settleInclusion (Sample.attempt 4 1 .job (.job 1)) (Sample.inclusion 4 10 100) true)]

theorem executes_once_foreign :
    ∃ w, (toldDriver Sample.chains).Reaches World.init w ∧
      w.store.txAttempts.rows.map (fun r => (r.nonce,r.status)) =
        [(0,.dropped),(1,.confirmed)] ∧ ExecutesOnce w := by
  have hrun : (toldDriver Sample.chains).Runs World.init foreignNonceRun := by decide +kernel
  exact ⟨_,hrun.reaches,by decide +kernel,executes_once hrun.reaches⟩

/-- The first send is delivered and mined, but its answer and all receipts are lost: the
driver concludes that someone else took the nonce, and sends the job again. -/
def lostAnswerRun : List Event :=
  let p := Sample.pair
  Sample.boot ++ [.op (.insertJob 1 Sample.request),
    .task p (.execute (.job 1) (.ok (Sample.signature 3 3))),.task p Sample.round,
    .task p .deliver,.task p (.answer (.error .indeterminate "connection reset")),
    .mine (p.slot 0) (.ours 3),.task p (.poll none),.task p (.escalate ⟨none,false,false⟩),
    .task p (.answer (.error .nonceTooLow "nonce too low")),.task p (.lookBack none),
    .task p (.void .answered 0),.task p .recover,.task p (.recoverDone (some 1)),
    .task p (.execute (.job 1) (.ok (Sample.signature 4 4))),.task p Sample.round,
    .task p .deliver,.mine (p.slot 1) (.ours 4)]

theorem executes_twice :
    ∃ w, (driver Sample.chains).Reaches World.init w ∧
      (∃ j ∈ w.store.jobs.rows, ∃ r r' : AttemptRow, r.Executes w.store j ∧
        r'.Executes w.store j ∧ w.Mines r ∧ w.Mines r' ∧ r ≠ r') ∧ ¬ ExecutesOnce w := by
  have hrun : (driver Sample.chains).Runs World.init lostAnswerRun := by decide +kernel
  have htwo : ∃ j ∈ (lostAnswerRun.foldl (driver Sample.chains).step World.init).store.jobs.rows,
      ∃ r ∈ (lostAnswerRun.foldl (driver Sample.chains).step World.init).store.txAttempts.rows,
      ∃ r' ∈ (lostAnswerRun.foldl (driver Sample.chains).step World.init).store.txAttempts.rows,
        (r.jobId = some j.id ∧ r.purpose = .job) ∧ (r'.jobId = some j.id ∧ r'.purpose = .job) ∧
        (lostAnswerRun.foldl (driver Sample.chains).step World.init).mined r.slot =
          some (.ours r.txHash) ∧
        (lostAnswerRun.foldl (driver Sample.chains).step World.init).mined r'.slot =
          some (.ours r'.txHash) ∧ r ≠ r' := by
    decide +kernel
  obtain ⟨j,hj,r,hr,r',hr',hi,hi',hm,hm',hne⟩ := htwo
  refine ⟨_,hrun.reaches,⟨j,hj,r,r',⟨hr,hi⟩,⟨hr',hi'⟩,hm,hm',hne⟩,?_⟩
  intro h
  exact hne (h.once j hj r r' ⟨hr,hi⟩ ⟨hr',hi'⟩ hm hm')

/-- No bytes reach a node while they are sent. After a replacement was bound the first ones do. -/
def lateArrivalRun : List Event :=
  let p := Sample.pair
  let reset : Input := .answer (.error .indeterminate "connection reset")
  Sample.boot ++ [.op (.insertJob 1 Sample.request),
    .task p (.execute (.job 1) (.ok (Sample.signature 3 3))),.task p Sample.round,.task p reset,
    .task p (.escalate ⟨none,false,false⟩),.task p reset,.task p (.escalate ⟨some 0,false,false⟩),
    .task p (.escalate ⟨none,false,true⟩),.task p (.sign (some (Sample.signature 4 4))),
    .task p Sample.round,.task p reset,.task p (.arrive 0 3),.mine (p.slot 0) (.ours 3),
    .task p (.poll none),.task p (.escalate ⟨none,false,false⟩),
    .task p (.answer (.error .nonceTooLow "nonce too low")),.task p (.lookBack none),
    .task p (.void .answered 0),.task p .recover,.task p (.recoverDone (some 1)),
    .task p (.execute (.job 1) (.ok (Sample.signature 5 5))),.task p Sample.round,
    .task p .deliver,.mine (p.slot 1) (.ours 5)]

example : (driver Sample.chains).Runs World.init lateArrivalRun ∧
    ¬ (toldDriver Sample.chains).Runs World.init lateArrivalRun ∧
    (let w := lateArrivalRun.foldl (driver Sample.chains).step World.init
     w.store.txAttempts.rows.map (fun r => (r.jobId,w.mined r.slot)) =
      [(some 1,some (.ours 3)),(some 1,some (.ours 3)),(some 1,some (.ours 5))]) := by
  decide +kernel

end GumEngine
