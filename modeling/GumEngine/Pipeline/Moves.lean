import GumEngine.Pipeline.Driver

/-!
# What a move of the driver leaves

Between two binds the driver keeps the attempts of its nonce, whatever the environment
answers: it polls, sends again, gives up, or moves on to what recovery has left to do.
-/

namespace GumEngine
open Relational Transition

/-- The attempt being bound. -/
def Activity.pending : Activity → Option Attempt
  | .binding _ a _ => some a
  | _ => none

/-- The nonces recovery has yet to look at. -/
def Activity.todo : Activity → List (List Attempt)
  | .recovering todo => todo
  | t => (t.inFlight.bind (·.todo)).getD []

/-- The same nonce with the same attempts; `never_accepted` is cleared at most. -/
structure InFlight.Like (f f₀ : InFlight) : Prop where
  owner : f.owner = f₀.owner
  nonce : f.nonce = f₀.nonce
  older : f.older = f₀.older
  last : f.last = f₀.last
  todo : f.todo = f₀.todo
  fresh : f.neverAccepted = true → f₀.neverAccepted = true

theorem InFlight.Like.attempts {f f₀ : InFlight} (h : f.Like f₀) : f.attempts = f₀.attempts := by
  unfold InFlight.attempts
  rw [h.older,h.last]

/-- Only a nonce that was never accepted is looked back at as fresh, or voided. -/
def Activity.Honest : Activity → Prop
  | .lookingBack f fresh _ => fresh = true → f.neverAccepted = true
  | .voiding f _ _ => f.neverAccepted = true
  | _ => True

/-- `t` goes on with the nonce in flight `f`, or with what comes after it. -/
structure Activity.From (t : Activity) (f : InFlight) : Prop where
  free : t.pending = none
  honest : t.Honest
  inFlight : ∀ f' ∈ t.inFlight, f'.Like f
  todo : ∀ g ∈ t.todo, g ∈ f.todo.getD []

section From

variable {f f' : InFlight}

/-- An activity that holds nothing. -/
structure Activity.Rests (t : Activity) : Prop where
  free : t.pending = none
  honest : t.Honest
  inFlight : t.inFlight = none
  todo : t.todo = []

theorem Activity.Rests.from {t : Activity} (h : t.Rests) (f : InFlight) : t.From f := by
  refine ⟨h.free,h.honest,?_,?_⟩
  · intro f' hf'
    rw [h.inFlight] at hf'
    cases hf'
  · intro g hg
    rw [h.todo] at hg
    cases hg

theorem Activity.rests_down : Activity.Rests .down := ⟨rfl,trivial,rfl,rfl⟩

theorem Activity.rests_paused : Activity.Rests .paused := ⟨rfl,trivial,rfl,rfl⟩

theorem Activity.rests_signerUnavailable : Activity.Rests .signerUnavailable :=
  ⟨rfl,trivial,rfl,rfl⟩

theorem Activity.rests_idle : Activity.Rests .idle := ⟨rfl,trivial,rfl,rfl⟩

/-- An activity that still has a nonce in flight like `f`. -/
theorem Activity.From.of_inFlight {t : Activity} (hfree : t.pending = none) (hon : t.Honest)
    (hin : t.inFlight = some f') (htodo : t.todo = f'.todo.getD []) (h : f'.Like f) :
    t.From f := by
  refine ⟨hfree,hon,?_,?_⟩
  · intro f'' hf''
    rw [hin] at hf''
    cases hf''
    exact h
  · intro g hg
    rwa [htodo,h.todo] at hg

theorem Activity.From.polling (h : f'.Like f) : Activity.From (.polling f') f :=
  .of_inFlight rfl trivial rfl rfl h

theorem Activity.From.sending (h : f'.Like f) : Activity.From (.sending f') f :=
  .of_inFlight rfl trivial rfl rfl h

theorem InFlight.Like.rfl' (f : InFlight) : f.Like f := ⟨rfl,rfl,rfl,rfl,rfl,fun h => h⟩

theorem InFlight.done_from (f : InFlight) : f.done.From f := by
  unfold InFlight.done
  split
  · exact Activity.rests_idle.from f
  · next todo h => exact ⟨rfl,trivial,by simp [Activity.inFlight],by simp [Activity.todo,h]⟩

theorem InFlight.needsRecovery_from (f : InFlight) : f.needsRecovery.From f := by
  unfold InFlight.needsRecovery
  split
  · exact Activity.rests_down.from f
  · exact Activity.rests_paused.from f

theorem InFlight.onReceipt_from {hash : B256} {usable : Bool} {t : Activity}
    (h : f.onReceipt hash usable = some t) : t.From f := by
  unfold InFlight.onReceipt at h
  split at h
  · cases h
    exact f.done_from
  · cases h

theorem InFlight.onSendError_from (chain : ChainKind) (f : InFlight) (text : String)
    (kind : SendErrorClass) : (f.onSendError chain text kind).From f := by
  have hsame := InFlight.Like.rfl' f
  have hcleared : InFlight.Like { f with neverAccepted := false } f :=
    ⟨rfl,rfl,rfl,rfl,rfl,fun h => by cases h⟩
  cases kind with
  | alreadyKnown => exact .polling hcleared
  | acceptedPending => exact .polling hcleared
  | indeterminate => exact .polling hsame
  | poolBusy => exact .sending hsame
  | nonceTooLow => exact .of_inFlight rfl (fun h => h) rfl rfl hsame
  | nonceTooHigh => exact f.needsRecovery_from
  | feeTooLow => exact .of_inFlight rfl trivial rfl rfl hsame
  | insufficientFunds => exact .sending hsame
  | deterministic =>
    simp only [InFlight.onSendError]
    split
    · next h =>
      have hfresh : f.neverAccepted = true := (Bool.and_eq_true_iff.mp h).1
      exact .of_inFlight rfl hfresh rfl rfl hsame
    · exact .polling hsame

/-- `From` looks at attempts and flag only, not at the locals of `resolve`. -/
theorem Activity.From.trans {t : Activity} (h : t.From f') (hf : f'.Like f) : t.From f := by
  refine ⟨h.free,h.honest,?_,?_⟩
  · intro g hg
    have hl := h.inFlight g hg
    exact ⟨hl.owner.trans hf.owner,hl.nonce.trans hf.nonce,hl.older.trans hf.older,
      hl.last.trans hf.last,hl.todo.trans hf.todo,fun hx => hf.fresh (hl.fresh hx)⟩
  · intro g hg
    rw [← hf.todo]
    exact h.todo g hg

theorem InFlight.onAnswer_from (chain : ChainKind) (f : InFlight) (a : Answer) :
    (f.onAnswer chain a).From f := by
  have hsame : InFlight.Like { f with firstBroadcast := false } f :=
    ⟨rfl,rfl,rfl,rfl,rfl,fun h => h⟩
  cases a with
  | receipt hash usable =>
    simp only [InFlight.onAnswer]
    cases h : InFlight.onReceipt { f with firstBroadcast := false } hash usable with
    | none => exact .polling hsame
    | some t => exact (InFlight.onReceipt_from h).trans hsame
  | accepted => exact .polling ⟨rfl,rfl,rfl,rfl,rfl,fun h => by cases h⟩
  | notDelivered => exact .sending ⟨rfl,rfl,rfl,rfl,rfl,fun h => h⟩
  | error kind text => exact (InFlight.onSendError_from chain _ text kind).trans hsame

theorem InFlight.onNonceTooLow_from {fresh : Bool} (parks : Bool) (found : Option B256)
    (h : fresh = true → f.neverAccepted = true) : (f.onNonceTooLow fresh parks found).From f := by
  unfold InFlight.onNonceTooLow
  split
  · next t ht =>
    obtain ⟨hash,-,ht⟩ := Option.bind_eq_some_iff.mp ht
    exact onReceipt_from ht
  · split
    · next hf => exact .of_inFlight rfl (h hf) rfl rfl (.rfl' f)
    · split
      · exact .polling ⟨rfl,rfl,rfl,rfl,rfl,fun h => h⟩
      · exact Activity.rests_paused.from f

theorem InFlight.escalate_from (chain : ChainKind) (f : InFlight) (d : Diagnosis) :
    (f.escalate chain d).From f := by
  have hdown : InFlight.Like { f with ladderPos := f.ladderPos + 1 } f :=
    ⟨rfl,rfl,rfl,rfl,rfl,fun h => h⟩
  unfold InFlight.escalate
  dsimp only
  split
  · exact .polling ⟨rfl,rfl,rfl,rfl,rfl,fun h => h⟩
  · exact .sending hdown
  · split
    · exact .polling (.rfl' f)
    · split
      · exact f.needsRecovery_from
      · split
        · exact .of_inFlight rfl (fun h => by cases h) rfl rfl hdown
        · split
          · exact .sending hdown
          · exact .polling hdown
  · split
    · exact .of_inFlight rfl trivial rfl rfl (.rfl' f)
    · exact .sending hdown
  · exact .of_inFlight rfl trivial rfl rfl hdown

theorem InFlight.poll_from (f : InFlight) (found : Option B256) :
    ((found.bind fun h => f.onReceipt h true).getD (.polling f)).From f := by
  cases h : found.bind fun h => f.onReceipt h true with
  | none => exact .polling (.rfl' f)
  | some t =>
    obtain ⟨hash,-,ht⟩ := Option.bind_eq_some_iff.mp h
    exact onReceipt_from ht

/-- A further attempt is signed for the owner and the nonce in flight, or given up. -/
def InFlight.Resigns (f : InFlight) (p : PairKey) (goal : Goal) (signed : Option Signature)
    (t : Activity) : Prop :=
  t = .polling f ∨ ∃ g ∈ signed, ∃ purpose g', g'.id = g.id ∧
    t = .binding goal (sign p f.owner f.nonce purpose g') 5

theorem InFlight.replace_resigns (chain : ChainKind) (p : PairKey) (f : InFlight)
    (signed : Option Signature) :
    f.Resigns p (.replace f) signed (f.replaceWithFreshFees chain p signed) := by
  unfold InFlight.replaceWithFreshFees
  split
  · exact .inl rfl
  · split
    · next o g _ =>
      exact .inr ⟨g,rfl,o.purpose,{ g with gasLimit := o.gasLimit, value := o.value },rfl,rfl⟩
    · exact .inl rfl

theorem InFlight.cancel_resigns (p : PairKey) (f : InFlight) (signed : Option Signature) :
    f.Resigns p (.cancel f) signed (f.cancel p signed) := by
  unfold InFlight.cancel
  split
  · next g => exact .inr ⟨g,rfl,.cancel,{ g with value := 0 },rfl,rfl⟩
  · exact .inl rfl

theorem Goal.notBound_cases (goal : Goal) (e : StoreError) :
    (goal.notBound e).Rests ∨ ∃ f ∈ goal.inFlight, (goal.notBound e).From f := by
  cases goal with
  | execute =>
    left
    simp only [Goal.notBound]
    split
    · exact Activity.rests_down
    · exact Activity.rests_idle
  | replace f =>
    right
    refine ⟨f,rfl,?_⟩
    simp only [Goal.notBound]
    split
    · exact Activity.rests_down.from f
    · exact .polling (.rfl' f)
  | cancel f =>
    right
    refine ⟨f,rfl,?_⟩
    simp only [Goal.notBound]
    split
    · exact Activity.rests_down.from f
    · exact .polling (.rfl' f)

end From

section Recovery

variable {live g : List Attempt}

theorem byNonce_mem (h : g ∈ byNonce live) : ∃ n, ∀ a ∈ g, a ∈ live ∧ a.nonce = n := by
  obtain ⟨n,-,rfl⟩ := List.mem_map.mp h
  refine ⟨n,?_⟩
  intro a ha
  simpa using ha

/-- Recovery sends what it loaded, and nothing else. -/
theorem resume_cases (chain : ChainKind) (group : List Attempt) (todo : List (List Attempt)) :
    resume chain group todo = .recovering todo ∨
      ∃ f : InFlight, resume chain group todo = .sending f ∧ f.neverAccepted = false ∧
        f.todo = some todo ∧ (∃ a ∈ group, f.nonce = a.nonce) ∧
        (∃ a ∈ f.attempts, a.owner = f.owner) ∧
        ∀ a ∈ f.attempts, ∃ b ∈ group, a = { b with status := .broadcast } := by
  unfold resume
  dsimp only
  split
  · exact .inl rfl
  · next first more h =>
    have hmem : ∀ a ∈ first :: more, ∃ b ∈ group, a = { b with status := .broadcast } := by
      intro a ha
      rw [← h] at ha
      obtain ⟨b,hb,rfl⟩ := List.mem_map.mp ha
      exact ⟨b,(List.mem_filter.mp hb).1,rfl⟩
    have hlist : (first :: more).dropLast ++ [more.getLastD first] = first :: more := by
      rw [← List.getLast_eq_getLastD (List.cons_ne_nil first more),
        List.dropLast_append_getLast]
    refine .inr ⟨_,rfl,rfl,rfl,?_,?_,?_⟩
    · obtain ⟨b,hb,rfl⟩ := hmem first List.mem_cons_self
      exact ⟨b,hb,rfl⟩
    · refine ⟨first,?_,rfl⟩
      rw [InFlight.attempts,hlist]
      exact List.mem_cons_self
    · intro a ha
      rw [InFlight.attempts,hlist] at ha
      exact hmem a ha

theorem resume_pending (chain : ChainKind) (group : List Attempt) (todo : List (List Attempt)) :
    (resume chain group todo).pending = none ∧ (resume chain group todo).Honest ∧
      (resume chain group todo).todo = todo := by
  rcases resume_cases chain group todo with h | ⟨f,h,-,ht,-⟩
  · rw [h]
    exact ⟨rfl,trivial,rfl⟩
  · rw [h]
    exact ⟨rfl,trivial,by simp [Activity.todo,Activity.inFlight,ht]⟩

/-- A loaded attempt is a live row of the pair. -/
theorem loadLive_mem {s : Store} {p : PairKey} {a : Attempt}
    (h : loadLiveAttemptsFor s p.chainId p.signer = .ok live) (ha : a ∈ live) :
    ∃ r ∈ s.txAttempts.rows, r.live ∧ r.chainId = p.chainId ∧ r.signer = p.signer ∧
      attemptRow r = .ok a := by
  obtain ⟨r,hr,hrow⟩ := (mem_mapM h).2 a ha
  obtain ⟨hmem,hc,hs,hl⟩ := mem_liveRows.mp hr
  exact ⟨r,hmem,hl,hc,hs,hrow⟩

end Recovery

section Rounds

/-- A call writes what its transaction does, or nothing. -/
theorem Call.answer_store (c : Call) (s : Store) (r : Except StoreError Store) :
    (c.answer s r).2 = s ∨ ∃ s', r = .ok s' ∧ (c.answer s r).2 = s' := by
  cases c with
  | refused e => exact .inl rfl
  | answered => cases r <;> simp [Call.answer]
  | lost e => cases r <;> simp [Call.answer,Store.commit]

variable {s : Store} {epoch : Int} {a : Attempt} {kind : BindKind}

theorem Call.run_commits (c : Call) (s : Store) (epoch : Int) (a : Attempt) (kind : BindKind) :
    c.commits s epoch a kind = false ∧ (c.run s epoch a kind).2 = s ∨
      c.commits s epoch a kind = true ∧ Bound s epoch a kind (c.run s epoch a kind).2 := by
  cases c with
  | refused e => exact .inl ⟨rfl,rfl⟩
  | answered =>
    unfold Call.run Call.answer Call.commits
    cases hb : bindAttempt s epoch a kind with
    | ok s' => exact .inr ⟨rfl,bindAttempt_spec hb⟩
    | error e => exact .inl ⟨rfl,rfl⟩
  | lost e =>
    unfold Call.run Call.answer Call.commits
    cases hb : bindAttempt s epoch a kind with
    | ok s' => exact .inr ⟨rfl,bindAttempt_spec hb⟩
    | error e => exact .inl ⟨rfl,rfl⟩

/-- A round writes the attempt or nothing. -/
theorem Round.run_commits (r : Round) (s : Store) (epoch : Int) (a : Attempt) (kind : BindKind) :
    r.call.commits s epoch a kind = false ∧ (r.run s epoch a kind).2 = s ∨
      r.call.commits s epoch a kind = true ∧ Bound s epoch a kind (r.run s epoch a kind).2 := by
  rw [Round.run_store]
  exact r.call.run_commits s epoch a kind

/-- A round that wrote nothing succeeds only when `attempt_exists` finds the hash. -/
theorem Round.run_bound {r : Round} (h : (r.run s epoch a kind).1 = .bound)
    (hc : r.call.commits s epoch a kind = false) :
    r.call.cutOff = true ∧ r.ask ≠ .failed ∧ attemptExists s a.txHash = true := by
  obtain ⟨call,ask⟩ := r
  have hsame := call.run_commits s epoch a kind
  simp only [hc,Bool.false_eq_true,false_and,or_false,true_and] at hsame
  unfold Round.run at h
  cases hrun : call.run s epoch a kind with
  | mk res s' =>
    rw [hrun] at hsame h
    obtain rfl : s' = s := hsame
    cases res with
    | ok u =>
      -- an answered call that succeeds has committed
      cases call with
      | answered =>
        simp only [Call.run,Call.answer] at hrun
        cases hb : bindAttempt s' epoch a kind <;> simp_all [Call.commits,Except.isOk,Except.toBool]
      | lost e => simp [Call.run,Call.answer] at hrun
      | refused e => simp [Call.run,Call.answer] at hrun
    | error e =>
      dsimp only at h
      split at h
      · next ht =>
        split at h
        · next hask =>
          refine ⟨?_,?_,?_⟩
          · cases call with
            | answered =>
              simp only [Call.run,Call.answer] at hrun
              cases hb : bindAttempt s' epoch a kind with
              | ok s'' => simp [hb] at hrun
              | error e' =>
                rw [hb] at hrun
                cases hrun
                rw [bindAttempt_error_permanent hb] at ht
                cases ht
            | lost e' => rfl
            | refused e' =>
              cases hrun
              exact ht
          · rintro rfl
            cases hask
          · cases ask with
            | failed => cases hask
            | _ => exact Option.some.inj hask
        · cases h
      · cases h

end Rounds

/-! ## What an input can do -/

/-- What the task of `p` makes of an input, and the activity in which it takes it. -/
inductive World.Takes (chains : ChainId → ChainKind) (w : World) (p : PairKey) : Input → World → Prop
  /-- An input that does not fit the activity does nothing. -/
  | unfit {i : Input}
      (hround : ∀ r, i = .round r → ∀ goal a left, w.tasks p ≠ .binding goal a left)
      (hvoid : ∀ call now, i = .void call now →
        ∀ f mode disposition, w.tasks p ≠ .voiding f mode disposition) : Takes chains w p i w
  | execute {owner : SlotOwner} {signed : Except SignerError Signature} (hp : w.tasks p = .idle) :
      Takes chains w p (.execute owner signed) (w.execute p owner signed)
  | round {r : Round} {goal : Goal} {a : Attempt} {left : Nat}
      (hp : w.tasks p = .binding goal a left) :
      Takes chains w p (.round r) (w.round p goal a left r)
  | deliver {f : InFlight} (hp : w.tasks p = .sending f) :
      Takes chains w p .deliver { w with delivered := (f.last.slot,f.last.txHash) :: w.delivered }
  | arrive {nonce : Nat} {txHash : B256} (hs : (p.slot nonce,txHash) ∈ w.sent)
      (hm : w.mined (p.slot nonce) = none) :
      Takes chains w p (.arrive nonce txHash)
        { w with delivered := (p.slot nonce,txHash) :: w.delivered }
  | answer {x : Answer} {f : InFlight} (hp : w.tasks p = .sending f) :
      Takes chains w p (.answer x) (w.answer (chains p.chainId) p f x)
  | lookBack {found : Option B256} {f : InFlight} {fresh parks : Bool}
      (hp : w.tasks p = .lookingBack f fresh parks) :
      Takes chains w p (.lookBack found) (w.setTask p (f.onNonceTooLow fresh parks found))
  | poll {found : Option B256} {f : InFlight} (hp : w.tasks p = .polling f) :
      Takes chains w p (.poll found)
        (w.setTask p ((found.bind fun h => f.onReceipt h true).getD (.polling f)))
  | escalate {d : Diagnosis} {f : InFlight} (hp : w.tasks p = .polling f) (hf : ¬ f.parked) :
      Takes chains w p (.escalate d) (w.setTask p (f.escalate (chains p.chainId) d))
  | replace {signed : Option Signature} {f : InFlight} (hp : w.tasks p = .replacing f) :
      Takes chains w p (.sign signed)
        (w.sign p (f.replaceWithFreshFees (chains p.chainId) p signed) signed)
  | cancel {signed : Option Signature} {f : InFlight} (hp : w.tasks p = .cancelling f) :
      Takes chains w p (.sign signed) (w.sign p (f.cancel p signed) signed)
  | void {call : Call} {now : Nat} {f : InFlight} {mode : VoidMode} {disposition : VoidDisposition}
      (hp : w.tasks p = .voiding f mode disposition) :
      Takes chains w p (.void call now) (w.void p f mode disposition call now)
  | recover (hp : (w.tasks p).Rests) : Takes chains w p .recover (w.recover p)
  | recoverNext {l : Look} {group : List Attempt} {todo : List (List Attempt)}
      (hp : w.tasks p = .recovering (group :: todo)) :
      Takes chains w p (.recoverNext l) (w.recoverNext (chains p.chainId) p group todo l)
  /-- Without the chain's nonce recovery is given up. -/
  | recoverFailed (hp : w.tasks p = .recovering []) :
      Takes chains w p (.recoverDone none) ({ w with store := ensurePair w.store p }.setTask p .down)
  | recoverDone {n : Nat} (hp : w.tasks p = .recovering []) :
      Takes chains w p (.recoverDone (some n))
        (({ w with store := ensurePair w.store p }.setNextNonce p
          ((ensurePair w.store p).nextNonce p n)).setTask p .idle)
  | resume (hp : w.tasks p = .signerUnavailable) : Takes chains w p .resume (w.setTask p .idle)
  | stop (hp : (w.tasks p).pending = none) : Takes chains w p .stop (w.setTask p .down)

theorem World.turn_takes (chains : ChainId → ChainKind) (w : World) (p : PairKey) (i : Input) :
    w.Takes chains p i (w.turn chains p i) := by
  have hunfit (hr : ∀ r, i ≠ .round r) (hv : ∀ call now, i ≠ .void call now) :
      w.Takes chains p i w :=
    .unfit (fun r h => absurd h (hr r)) fun call now h => absurd h (hv call now)
  cases i with
  | execute owner signed =>
    simp only [World.turn]
    split
    · next hp => exact .execute hp
    · exact hunfit nofun nofun
  | round r =>
    simp only [World.turn]
    split
    · next hp => exact .round hp
    · next hno => exact .unfit (fun _ _ => hno) nofun
  | deliver =>
    simp only [World.turn]
    split
    · next hp => exact .deliver hp
    · exact hunfit nofun nofun
  | arrive nonce txHash =>
    simp only [World.turn]
    split
    · next hx => exact .arrive hx.1 hx.2
    · exact hunfit nofun nofun
  | answer x =>
    simp only [World.turn]
    split
    · next hp => exact .answer hp
    · exact hunfit nofun nofun
  | lookBack found =>
    simp only [World.turn]
    split
    · next hp => exact .lookBack hp
    · exact hunfit nofun nofun
  | poll found =>
    simp only [World.turn]
    split
    · next hp => exact .poll hp
    · exact hunfit nofun nofun
  | escalate d =>
    simp only [World.turn]
    split
    · next hp =>
      split
      · exact hunfit nofun nofun
      · next hf => exact .escalate hp hf
    · exact hunfit nofun nofun
  | sign signed =>
    simp only [World.turn]
    split
    · next hp => exact .replace hp
    · next hp => exact .cancel hp
    · exact hunfit nofun nofun
  | void call now =>
    simp only [World.turn]
    split
    · next hp => exact .void hp
    · next hno => exact .unfit nofun fun _ _ _ => hno
  | recover =>
    simp only [World.turn]
    split
    · next hp => exact .recover (hp ▸ Activity.rests_down)
    · next hp => exact .recover (hp ▸ Activity.rests_paused)
    · next hp => exact .recover (hp ▸ Activity.rests_signerUnavailable)
    · next hp => exact .recover (hp ▸ Activity.rests_idle)
    · exact hunfit nofun nofun
  | recoverNext l =>
    simp only [World.turn]
    split
    · next hp => exact .recoverNext hp
    · exact hunfit nofun nofun
  | recoverDone chainNonce =>
    simp only [World.turn]
    split
    · next hp =>
      cases chainNonce with
      | none => exact .recoverFailed hp
      | some n => exact .recoverDone hp
    · exact hunfit nofun nofun
  | resume =>
    simp only [World.turn]
    split
    · next hp => exact .resume hp
    · exact hunfit nofun nofun
  | stop =>
    simp only [World.turn]
    split
    · next hp => exact .stop (by rw [hp]; rfl)
    · next hp => exact .stop (by rw [hp]; rfl)
    · next hp => exact .stop (by rw [hp]; rfl)
    · exact hunfit nofun nofun

end GumEngine
