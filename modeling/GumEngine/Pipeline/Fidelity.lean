import GumEngine.Pipeline.Attribution

/-!
# Only the caller's call is signed

Over every run, restarts included: an attempt of a job is a signed transaction with the call of
the job's request, or a cancel, which is a transfer of nothing from the signer to itself. Those
with the call share one gas limit at a nonce, although a replacement is signed from stored bytes.
-/

namespace GumEngine
open Relational Transition

variable {Sig : Type} {alloy : Alloy Sig}

/-- The transaction of `a`, with the call left open. -/
def Attempt.fields (a : Attempt) (toAddr : Address) (data : Bytes) : TxFields where
  chainId := a.chainId
  nonce := a.nonce
  toAddr := toAddr
  data := data
  value := a.value
  gasLimit := a.gasLimit
  maxFeePerGas := a.maxFeePerGas
  maxPriorityFeePerGas := a.maxPriorityFeePerGas

/-- The bytes of `a` are a transaction of its nonce to `toAddr`, signed by its signer. -/
def Attempt.Encodes (alloy : Alloy Sig) (a : Attempt) (toAddr : Address) (data : Bytes) : Prop :=
  ∃ random, alloy.decode2718 a.rawTx =
    some (a.fields toAddr data,alloy.signTransaction a.signer (a.fields toAddr data) random)

/-- `a` makes the call that `r` asks for. -/
structure Attempt.Makes (alloy : Alloy Sig) (a : Attempt) (r : JobRequest) : Prop where
  purpose : a.purpose = .job
  value : a.value = r.value
  gasLimit : ∀ g ∈ r.gasLimit, a.gasLimit = g
  bytes : a.Encodes alloy r.toAddr r.data

/-- `a` only takes up its nonce. -/
structure Attempt.Yields (alloy : Alloy Sig) (a : Attempt) : Prop where
  purpose : a.purpose = .cancel
  value : a.value = 0
  bytes : a.Encodes alloy a.signer []

/-- An attempt of a job makes the call of its stored request, or none. -/
def Attempt.Calls (alloy : Alloy Sig) (s : Store) (a : Attempt) : Prop :=
  ∀ id, a.owner = .job id → ∃ j ∈ s.jobs.rows, j.id = id ∧
    (a.Makes alloy j.request ∨ a.Yields alloy)

/-- A nonce is given back while its job is still bound to it, or has failed. A void that was
written without being acknowledged, and returned the job to the queue, comes before none. -/
def Event.Releases (w : World) : Event → Prop
  | .task p (.void call now) =>
    match w.tasks p with
    | .voiding f .nonceUnused disposition =>
      call.voids w.store w.epoch f.last .nonceUnused disposition now = true →
        ∀ j ∈ w.store.jobs.rows, f.owner = .job j.id → j.status ∈ [.sent,.cancelling,.failed]
    | _ => True
  | _ => True

/-- The engine that signs, with the bind loop asking about its own attempts only. -/
def orderlyCaller (alloy : Alloy Sig) (chains : ChainId → ChainKind) : Machine World CallEvent :=
  (caller alloy chains).restrict fun w e =>
    (e.lower alloy w).AsksOwn w ∧ (e.lower alloy w).Releases w

/-! ## Attribution over a run -/

section Runs

variable {w : World} {chains : ChainId → ChainKind} {e : CallEvent}

theorem Attributed.init : Attributed World.init := by
  refine ⟨⟨?_,?_⟩,?_,?_⟩
  · intro c hc
    cases hc
  · intro r hr
    cases hr
  · exact fun p => Activity.rests_down.owned _ p
  · rintro p f ⟨⟩

theorem Attributed.restart (h : Attributed w) : Attributed (w.step chains .restart) := by
  refine ⟨⟨h.rooted.columns,h.rooted.rows⟩,?_,?_⟩
  · exact fun p => Activity.rests_down.owned _ p
  · rintro p f ⟨⟩

theorem Attributed.mine (h : Attributed w) (k : Slot) (m : Mined) :
    Attributed (w.step chains (.mine k m)) := by
  refine ⟨⟨h.rooted.columns,h.rooted.rows⟩,?_,h.gives⟩
  intro p
  obtain ⟨held,todo,again,first,fresh⟩ := h.owned p
  refine ⟨?_,?_,again,first,fresh⟩
  · intro f hf a ha
    obtain ⟨ho,hc,hr⟩ := held f hf a ha
    exact ⟨ho,hc,hr⟩
  · intro g hg
    obtain ⟨o,hog⟩ := todo g hg
    refine ⟨o,fun a ha => ?_⟩
    obtain ⟨ho,hc,hr⟩ := hog a ha
    exact ⟨ho,hc,hr⟩

theorem Attributed.step (h : Attributed w) (ht : Traced w) (he : (e.lower alloy w).Possible w)
    (hissued : e.Issued w) (ht' : Traced (w.step chains (e.lower alloy w))) :
    Attributed (w.step chains (e.lower alloy w)) := by
  cases e with
  | op o => exact h.op ht he hissued
  | mine k m => exact h.mine k m
  | restart => exact h.restart
  | task p i => exact h.turn ht he ht'

end Runs

/-! ## Requests are kept -/

section Requests

variable {w : World} {p : PairKey} {s s' : Store} {t : Activity} {c : Tally} {a : Attempt}

theorem Turned.keepsJobs (h : Turned w p s t c) : w.store.KeepsJobs s := by
  cases h with
  | stays => exact .rfl' w.store
  | rests ht hr => exact .rfl' w.store
  | goes hf ht hr => exact .rfl' w.store
  | signs hr => exact .rfl' w.store
  | signsAgain hf hg => exact .rfl' w.store
  | binds hp hs ht =>
    rcases hs with ⟨rfl,-⟩ | ⟨hb,-⟩
    · exact .rfl' w.store
    · exact (bindAttempt_spec hb).outbox.keeps
  | voids hp hs ht hr =>
    rcases hs with ⟨rfl,-⟩ | ⟨hv,-⟩
    · exact .rfl' w.store
    · exact (voidBinding_spec hv).outbox.keeps
  | loads hin hl => exact .rfl' w.store
  | walks hp hs ht =>
    rcases hs with rfl | ⟨a,rfl⟩
    · exact .rfl' w.store
    · exact demoteInclusion_keepsJobs w.store a
  | ends hp ht => exact .rfl' w.store

theorem Attempt.Calls.mono (h : a.Calls alloy s) (hk : s.KeepsJobs s') : a.Calls alloy s' := by
  intro id ho
  obtain ⟨j,hj,rfl,hcall⟩ := h id ho
  obtain ⟨j',hj',hid,hreq,-⟩ := hk j hj
  exact ⟨j',hj',hid,hreq ▸ hcall⟩

end Requests

/-! ## What is signed -/

section Contents

variable {w : World} {p : PairKey} {i : CallInput} {goal : Goal} {a b : Attempt}

/-- What `TxDriver::sign` returns decodes to the call it was given. -/
theorem sign_encodes (hinv : alloy.Inverts) (p : PairKey) (owner : SlotOwner) (nonce : Nat)
    (purpose : AttemptPurpose) (toAddr : Address) (data : Bytes) (value : U256) (gasLimit : Nat)
    (q : Quote) :
    (sign p owner nonce purpose (q.signature alloy p nonce toAddr data value gasLimit)).Encodes
      alloy toAddr data :=
  ⟨q.random,hinv _ _⟩

theorem Attempt.Encodes.target {toAddr : Address} {data : Bytes}
    (h : a.Encodes alloy toAddr data) : decodeTarget alloy a = some (toAddr,data) := by
  obtain ⟨random,hdec⟩ := h
  rw [decodeTarget,hdec]
  rfl

/-- The stored bytes of an attempt tell what the attempt as committed calls. -/
theorem Attempt.Repeats.target (h : a.Repeats b) : decodeTarget alloy a = decodeTarget alloy b := by
  rw [decodeTarget,decodeTarget,h.rawTx]

theorem InFlight.original_spec {f : InFlight} {o : Attempt} (h : f.original = some o) :
    o ∈ f.attempts ∧ o.purpose ≠ .cancel := by
  refine ⟨List.mem_of_find?_eq_some h,?_⟩
  simpa using List.find?_some h

end Contents


/-! ## The invariant -/

/-- What is committed or about to be makes the call of its job; what is signed once more for the
call takes the gas limit of an attempt that was committed for it. -/
structure Faithful (alloy : Alloy Sig) (w : World) : Prop where
  calls : ∀ a ∈ w.bound, a.Calls alloy w.store
  pending : ∀ p a, (w.tasks p).pending = some a → a.Calls alloy w.store
  again : ∀ p goal a left, w.tasks p = .binding goal a left → goal ≠ .execute →
    a.purpose = .job → ∃ b ∈ w.bound, b.owner = a.owner ∧ b.slot = a.slot ∧ b.purpose = .job ∧
      b.gasLimit = a.gasLimit

def Store.Failed (s : Store) (id : JobId) : Prop := ∃ j ∈ s.jobs.rows, j.id = id ∧ j.status = .failed

/-- A job keeps the nonces of its attempts until it fails, and at each signs its call with one gas
limit. -/
structure Priced (w : World) : Prop where
  held : ∀ b ∈ w.bound, ∀ id, b.owner = .job id →
    w.store.holder b.slot = some b.owner.key ∨ w.store.Failed id
  same : ∀ a ∈ w.bound, ∀ b ∈ w.bound, ∀ id, a.owner = .job id → b.owner = .job id →
    a.slot = b.slot → a.purpose = .job → b.purpose = .job → a.gasLimit = b.gasLimit

section Signing

variable {w : World} {p : PairKey} {i : CallInput} {goal : Goal} {a b : Attempt}

/-- A replacement is signed from the bytes of an attempt that was committed for the call. -/
theorem InFlight.resigned_spec {f : InFlight} {o : Attempt} {q : Quote} {g : Signature}
    (h : f.resigned alloy p q = some g) (ho : f.original = some o) :
    ∃ toAddr data, decodeTarget alloy o = some (toAddr,data) ∧
      g = q.signature alloy p f.nonce toAddr data o.value o.gasLimit := by
  unfold InFlight.resigned at h
  rw [ho] at h
  obtain ⟨⟨toAddr,data⟩,htarget,hg⟩ := Option.bind_eq_some_iff.mp
    (show (decodeTarget alloy o).bind _ = some g from h)
  exact ⟨toAddr,data,htarget,(Option.some.inj hg).symm⟩

/-- Which input of the driver the bytes come from. -/
theorem CallInput.lower_sign {f : InFlight} {g : Signature} (hp : w.tasks p = .replacing f)
    (hissued : (CallEvent.task p i).Issued w) (h : i.lower alloy w p = .sign (some g)) :
    ∃ q, f.resigned alloy p q = some g := by
  cases i with
  | execute intent quoted => cases h
  | sign quoted =>
    simp only [CallInput.lower,hp,Input.sign.injEq] at h
    obtain ⟨q,-,hq⟩ := Option.bind_eq_some_iff.mp h
    exact ⟨q,hq⟩
  | other i =>
    obtain rfl : i = .sign (some g) := h
    cases hissued

theorem CallInput.lower_cancel {f : InFlight} {g : Signature} (hp : w.tasks p = .cancelling f)
    (hissued : (CallEvent.task p i).Issued w) (h : i.lower alloy w p = .sign (some g)) :
    ∃ q, g = f.noop alloy p q := by
  cases i with
  | execute intent quoted => cases h
  | sign quoted =>
    simp only [CallInput.lower,hp,Input.sign.injEq] at h
    obtain ⟨q,-,hq⟩ := Option.map_eq_some_iff.mp h
    exact ⟨q,hq.symm⟩
  | other i =>
    obtain rfl : i = .sign (some g) := h
    cases hissued

theorem CallInput.lower_execute {owner : SlotOwner} {g : Signature}
    (hissued : (CallEvent.task p i).Issued w)
    (h : i.lower alloy w p = .execute owner (.ok g)) :
    ∃ intent q, w.store.Intends intent ∧ owner = intent.owner ∧
      g = Quote.signature alloy p (w.nextNonce p) intent.toAddr intent.data intent.value
        intent.gasLimit q := by
  cases i with
  | execute intent quoted =>
    cases quoted with
    | error e => cases h
    | ok q =>
      obtain ⟨rfl,hg⟩ := Input.execute.inj h
      exact ⟨intent,q,hissued,rfl,(Except.ok.inj hg).symm⟩
  | sign quoted =>
    simp only [CallInput.lower] at h
    split at h
    · cases h
    · cases h
    · cases h
  | other i =>
    obtain rfl : i = .execute owner (.ok g) := h
    cases hissued

/-- What a replacement copies is what was committed for the call. -/
theorem Faithful.original (h : Faithful alloy w) {f : InFlight} {o : Attempt} {id : JobId}
    (howned : (w.tasks p).Owned w p) (hf : f ∈ (w.tasks p).inFlight) (ho : f.original = some o)
    (hid : f.owner = .job id) :
    ∃ b ∈ w.bound, o.Repeats b ∧ b.owner = f.owner ∧ ∃ j ∈ w.store.jobs.rows, j.id = id ∧
      b.Makes alloy j.request := by
  obtain ⟨hmem,hpur⟩ := InFlight.original_spec ho
  obtain ⟨hown,⟨b,hb,hrep⟩,-⟩ := howned.held f hf o hmem
  have hbo : b.owner = f.owner := hrep.owner.symm.trans hown
  obtain ⟨j,hj,hjid,hcall⟩ := h.calls b hb id (hbo.trans hid)
  refine ⟨b,hb,hrep,hbo,j,hj,hjid,?_⟩
  rcases hcall with hm | hy
  · exact hm
  · exact absurd (hrep.purpose.trans hy.purpose) hpur

/-- Whatever is signed makes the call of its job. -/
theorem Signed.calls (hinv : alloy.Inverts) (h : Faithful alloy w)
    (howned : (w.tasks p).Owned w p) (hissued : (CallEvent.task p i).Issued w)
    (hs : Signed w p (i.lower alloy w p) goal a) : a.Calls alloy w.store := by
  intro id hid
  generalize hl : i.lower alloy w p = input at hs
  cases hs with
  | @execute owner g hp =>
    obtain ⟨intent,q,hint,rfl,rfl⟩ := CallInput.lower_execute hissued hl
    have hio : intent.owner = .job id := hid
    unfold Store.Intends at hint
    rw [hio] at hint
    obtain ⟨j,hj,hjid,hi,hgas⟩ := hint
    refine ⟨j,hj,hjid,.inl ⟨?_,?_,hgas,?_⟩⟩
    · show intent.owner.purpose = .job
      rw [hio]
      rfl
    · show intent.value = j.request.value
      rw [hi]
      rfl
    · have hbytes := sign_encodes hinv p intent.owner (w.nextNonce p) intent.owner.purpose
        intent.toAddr intent.data intent.value intent.gasLimit q
      have hto : intent.toAddr = j.request.toAddr := by
        rw [hi]
        rfl
      have hdata : intent.data = j.request.data := by
        rw [hi]
        rfl
      rw [← hto,← hdata]
      exact hbytes
  | @replace f g o hp ho =>
    have hf : f ∈ (w.tasks p).inFlight := by
      rw [hp]
      rfl
    obtain ⟨q,hq⟩ := CallInput.lower_sign hp hissued hl
    obtain ⟨toAddr,data,htarget,rfl⟩ := InFlight.resigned_spec hq ho
    obtain ⟨b,-,hrep,-,j,hj,hjid,hmakes⟩ := h.original howned hf ho hid
    rw [hrep.target,hmakes.bytes.target] at htarget
    cases htarget
    refine ⟨j,hj,hjid,.inl ⟨?_,?_,?_,?_⟩⟩
    · exact hrep.purpose.trans hmakes.purpose
    · exact hrep.value.trans hmakes.value
    · exact fun g hg => hrep.gasLimit.trans (hmakes.gasLimit g hg)
    · exact sign_encodes hinv p f.owner f.nonce o.purpose _ _ o.value o.gasLimit q
  | @cancel f g hp =>
    obtain ⟨q,rfl⟩ := CallInput.lower_cancel hp hissued hl
    have hf : f ∈ (w.tasks p).inFlight := by
      rw [hp]
      rfl
    -- the job is that of the attempts in flight
    obtain ⟨hown,⟨b,hb,hrep⟩,-⟩ := howned.held f hf f.last f.last_mem
    obtain ⟨j,hj,hjid,-⟩ := h.calls b hb id (hrep.owner.symm.trans (hown.trans hid))
    refine ⟨j,hj,hjid,.inr ⟨rfl,rfl,?_⟩⟩
    exact sign_encodes hinv p f.owner f.nonce .cancel p.signer [] 0 q.gasLimit q

/-- A replacement takes its gas limit from a committed attempt for the call. -/
theorem Signed.again (howned : (w.tasks p).Owned w p)
    (hown : (w.tasks p).Own p) (hs : Signed w p (i.lower alloy w p) goal a)
    (hgoal : goal ≠ .execute) (hpur : a.purpose = .job) :
    ∃ b ∈ w.bound, b.owner = a.owner ∧ b.slot = a.slot ∧ b.purpose = .job ∧
      b.gasLimit = a.gasLimit := by
  generalize i.lower alloy w p = input at hs
  cases hs with
  | execute hp => exact absurd rfl hgoal
  | @replace f g o hp ho =>
    have hf : f ∈ (w.tasks p).inFlight := by
      rw [hp]
      rfl
    obtain ⟨hmem,-⟩ := InFlight.original_spec ho
    obtain ⟨hoo,⟨b,hb,hrep⟩,-⟩ := howned.held f hf o hmem
    refine ⟨b,hb,hrep.owner.symm.trans hoo,?_,hrep.purpose.symm.trans hpur,hrep.gasLimit.symm⟩
    exact hrep.slot.symm.trans (hown.held f hf o hmem)
  | cancel hp => cases hpur

end Signing


/-! ## Every step -/

section Steps

variable {w : World} {p : PairKey} {chains : ChainId → ChainKind}

theorem Tally.mem_bound {l : List Attempt} {pending : Option Attempt} {c : Tally} {a : Attempt}
    (h : a ∈ c.bound l pending) : a ∈ l ∨ pending = some a := by
  cases c with
  | kept => exact .inl h
  | gave k => exact .inl h
  | took k =>
    rcases List.mem_append.mp h with h | h
    · rw [Option.mem_toList] at h
      exact .inr h
    · exact .inl h

theorem World.turn_pending {i : Input} {q : PairKey} {a : Attempt} (ht : Traced w)
    (h : ((w.turn chains p i).tasks q).pending = some a) :
    (w.tasks q).pending = some a ∨ q = p ∧ ∃ goal, Signed w p i goal a := by
  by_cases hq : q = p
  · subst hq
    cases htask : (w.turn chains q i).tasks q with
    | binding goal b left =>
      rw [htask] at h
      obtain rfl : b = a := Option.some.inj h
      rcases (World.turn_moved chains i (ht.honest q)).binding htask with ⟨n,hp⟩ | hs
      · exact .inl (by rw [hp]; rfl)
      · exact .inr ⟨rfl,goal,hs⟩
    | _ =>
      rw [htask] at h
      cases h
  · rw [(w.turn_apart chains p i q hq).1] at h
    exact .inl h

theorem Faithful.turn {i : CallInput} (hinv : alloy.Inverts) (h : Faithful alloy w)
    (hat : Attributed w) (ht : Traced w) (hissued : (CallEvent.task p i).Issued w) :
    Faithful alloy (w.turn chains p (i.lower alloy w p)) := by
  have hkeeps := (World.turn_turned chains (i.lower alloy w p) (ht.honest p)).keepsJobs
  have hbound := w.turn_bound chains p (i.lower alloy w p)
  have hgrows : ∀ b ∈ w.bound, b ∈ (w.turn chains p (i.lower alloy w p)).bound := by
    intro b hb
    rw [hbound]
    cases w.tally p (i.lower alloy w p) with
    | kept => exact hb
    | gave k => exact hb
    | took k => exact List.mem_append_right _ hb
  refine ⟨?_,?_,?_⟩
  · intro a ha
    rw [hbound] at ha
    rcases Tally.mem_bound ha with ha | ha
    · exact (h.calls a ha).mono hkeeps
    · exact (h.pending p a ha).mono hkeeps
  · intro q a ha
    rcases World.turn_pending ht ha with hold | ⟨rfl,goal,hs⟩
    · exact (h.pending q a hold).mono hkeeps
    · exact (hs.calls hinv h (hat.owned q) hissued).mono hkeeps
  · intro q goal a left hq hgoal hpur
    have hsome : ∃ b ∈ w.bound, b.owner = a.owner ∧ b.slot = a.slot ∧ b.purpose = .job ∧
        b.gasLimit = a.gasLimit := by
      by_cases hqp : q = p
      · subst hqp
        rcases (World.turn_moved chains _ (ht.honest q)).binding hq with ⟨n,hold⟩ | hs
        · exact h.again q goal a n hold hgoal hpur
        · exact hs.again (hat.owned q) (ht.own q) hgoal hpur
      · rw [(w.turn_apart chains p _ q hqp).1] at hq
        exact h.again q goal a left hq hgoal hpur
    obtain ⟨b,hb,hrest⟩ := hsome
    exact ⟨b,hgrows b hb,hrest⟩

theorem Faithful.step {e : CallEvent} (hinv : alloy.Inverts) (h : Faithful alloy w)
    (hat : Attributed w) (ht : Traced w) (he : (e.lower alloy w).Possible w)
    (hissued : e.Issued w) : Faithful alloy (w.step chains (e.lower alloy w)) := by
  cases e with
  | op o =>
    have hkeeps : w.store.KeepsJobs (o.apply w.store) := Op.Possible.keepsJobs he
    refine ⟨?_,?_,h.again⟩
    · exact fun a ha => (h.calls a ha).mono hkeeps
    · exact fun p a ha => (h.pending p a ha).mono hkeeps
  | mine k m => exact ⟨h.calls,h.pending,h.again⟩
  | restart =>
    refine ⟨h.calls,?_,?_⟩
    · rintro p a ⟨⟩
    · rintro p goal a left ⟨⟩
  | task p i => exact h.turn hinv hat ht hissued

/-- A failed job stays failed. -/
theorem Store.Failed.mono {s s' : Store} {id : JobId} (h : s.Failed id) (hk : s.KeepsJobs s') :
    s'.Failed id := by
  obtain ⟨j,hj,rfl,hst⟩ := h
  obtain ⟨j',hj',hid,-,hf⟩ := hk j hj
  exact ⟨j',hj',hid,hf hst⟩

/-- A job that is bound to its first nonce has not failed. -/
theorem Bound.not_failed {s s' : Store} {epoch : Int} {a : Attempt} {id : JobId}
    (h : Bound s epoch a .first s') (ho : a.owner = .job id) : ¬ s.Failed id := by
  rintro ⟨j,hj,hid,hst⟩
  obtain ⟨x,hx,hxid,hxst⟩ := h.owner id ho
  rw [s.jobs.eq_of_key hx hj (hxid.trans hid.symm)] at hxst
  rw [hst] at hxst
  cases hxst with
  | tail _ h => cases h

/-- A void that gives a nonce back leaves its job failed. -/
theorem Voids.fails {s s' : Store} {epoch : Int} {a : Attempt} {failure : JobFailure}
    {message : String} {now : Nat} {j : JobRow}
    (h : Voids s epoch a .nonceUnused (.fail failure message) now s') (hj : j ∈ s.jobs.rows)
    (ho : a.owner = .job j.id) (hst : j.status ∈ [JobStatus.sent,.cancelling,.failed]) :
    s'.Failed j.id := by
  refine ⟨voidJob a (.fail failure message) now j,?_,voidJob_id _ _ _ j,?_⟩
  · rw [h.jobs]
    exact List.mem_map_of_mem hj
  · by_cases hlive : j.status ∈ [JobStatus.sent,.cancelling]
    · rw [voidJob,ownJob_of ho hlive]
      rfl
    · rw [voidJob,ownJob_of_not fun hx => hlive hx.2]
      simp at hst hlive
      simpa [hlive] using hst

/-- Only a bind takes a nonce. -/
theorem Turned.took {s : Store} {t : Activity} {c : Tally} {k : Slot} (h : Turned w p s t c)
    (hc : c = .took k) : ∃ goal a left, w.tasks p = .binding goal a left ∧
      Bound w.store w.epoch a goal.kind s := by
  cases h with
  | @binds goal a left s t c hp hs ht =>
    rcases hs with ⟨-,rfl⟩ | ⟨hb,-⟩
    · cases hc
    · exact ⟨goal,a,left,hp,bindAttempt_spec hb⟩
  | @voids f mode disposition now s t c hp hs ht hr =>
    rcases hs with ⟨-,rfl⟩ | ⟨-,rfl⟩
    · cases hc
    · split at hc
      · cases hc
      · cases hc
  | _ => cases hc

/-- What is asked of a move that gives a nonce back. -/
theorem Event.Releases.gave {i : Input} {f : InFlight} {disposition : VoidDisposition} {k : Slot}
    (h : (Event.task p i).Releases w) (hp : w.tasks p = .voiding f .nonceUnused disposition)
    (hc : w.tally p i = .gave k) :
    ∀ j ∈ w.store.jobs.rows, f.owner = .job j.id → j.status ∈ [JobStatus.sent,.cancelling,.failed] := by
  cases i with
  | void call now =>
    simp only [World.tally,hp,true_and] at hc
    simp only [Event.Releases,hp] at h
    split at hc
    · next hv => exact h hv
    · cases hc
  | round r =>
    simp only [World.tally,hp] at hc
    cases hc
  | _ => cases hc

/-- The nonces of jobs after a move of a task. -/
theorem Priced.held_turn {i : Input} (h : Priced w) (hf : Faithful alloy w) (hat : Attributed w)
    (ht : Traced w) (hrel : (Event.task p i).Releases w) {b : Attempt} {id : JobId}
    (hb : b ∈ (w.turn chains p i).bound) (ho : b.owner = .job id) :
    (w.turn chains p i).store.holder b.slot = some b.owner.key ∨
      (w.turn chains p i).store.Failed id := by
  have hturn := World.turn_turned chains i (ht.honest p)
  rw [w.turn_bound chains p i] at hb
  by_cases hbw : b ∈ w.bound
  · rcases h.held b hbw id ho with hk | hfail
    · rcases hturn.holder b.slot with hsame | ⟨-,f,disposition,now,hp,hslot,hc,hvoid⟩ |
        ⟨a,left,-,hslot,hbound⟩
      · exact .inl (hsame.trans hk)
      · -- the job whose nonce is given back fails
        right
        have hin : f ∈ (w.tasks p).inFlight := by
          rw [hp]
          rfl
        obtain ⟨hown,-,hres⟩ := (hat.owned p).held f hin f.last f.last_mem
        rw [← hslot] at hres
        have hfo : f.owner = b.owner :=
          SlotOwner.key_inj (Option.some.inj ((hres.holds hk).symm.trans hk))
        obtain ⟨j,hj,rfl,-⟩ := hf.calls b hbw id ho
        cases disposition with
        | requeue => exact absurd hp (hat.gives p f)
        | fail failure message =>
          exact hvoid.fails hj (hown.trans (hfo.trans ho)) (hrel.gave hp hc j hj (hfo.trans ho))
      · rw [hslot,hbound.claims.1] at hk
        cases hk
    · exact .inr (hfail.mono hturn.keepsJobs)
  · -- the attempt was committed in this move
    cases hc : w.tally p i with
    | kept =>
      rw [hc] at hb
      exact absurd hb hbw
    | gave k =>
      rw [hc] at hb
      exact absurd hb hbw
    | took k =>
      obtain ⟨goal,a,left,hp,hbound⟩ := hturn.took hc
      have hpend : (w.tasks p).pending = some a := by
        rw [hp]
        rfl
      rcases Tally.mem_bound hb with hb | hb
      · exact absurd hb hbw
      · obtain rfl : a = b := Option.some.inj (hpend.symm.trans hb)
        exact .inl (Activity.Owned.committed (hp ▸ hat.owned p) (hp ▸ ht.own p) hbound)

/-- An attempt with the call, committed in this move, has the gas limit of those before it. -/
theorem Priced.committed {goal : Goal} {a b : Attempt} {left : Nat} {s : Store} {id : JobId}
    (h : Priced w) (hf : Faithful alloy w) (hp : w.tasks p = .binding goal a left)
    (hbound : Bound w.store w.epoch a goal.kind s) (hb : b ∈ w.bound) (hao : a.owner = .job id)
    (hbo : b.owner = .job id) (hslot : a.slot = b.slot) (ha : a.purpose = .job)
    (hbp : b.purpose = .job) : a.gasLimit = b.gasLimit := by
  by_cases hgoal : goal = .execute
  · -- a nonce that is free again was that of a failed job
    subst hgoal
    rcases h.held b hb id hbo with hk | hfail
    · rw [← hslot,hbound.claims.1] at hk
      cases hk
    · exact absurd hfail (hbound.not_failed hao)
  · obtain ⟨x,hx,hxo,hxs,hxp,hxg⟩ := hf.again p goal a left hp hgoal ha
    rw [← hxg]
    exact h.same x hx b hb id (hxo.trans hao) hbo (hxs.trans hslot) hxp hbp

theorem Priced.turn {i : Input} (h : Priced w) (hf : Faithful alloy w) (hat : Attributed w)
    (ht : Traced w) (hrel : (Event.task p i).Releases w) : Priced (w.turn chains p i) := by
  refine ⟨fun b hb id ho => h.held_turn hf hat ht hrel hb ho,?_⟩
  have hturn := World.turn_turned chains i (ht.honest p)
  -- an attempt that is new is the one whose bind committed
  have hnew : ∀ a ∈ (w.turn chains p i).bound, a ∈ w.bound ∨ ∃ goal left,
      w.tasks p = .binding goal a left ∧
        Bound w.store w.epoch a goal.kind (w.turn chains p i).store := by
    intro a ha
    rw [w.turn_bound chains p i] at ha
    cases hc : w.tally p i with
    | kept =>
      rw [hc] at ha
      exact .inl ha
    | gave k =>
      rw [hc] at ha
      exact .inl ha
    | took k =>
      obtain ⟨goal,x,left,hp,hbound⟩ := hturn.took hc
      rcases Tally.mem_bound ha with ha | ha
      · exact .inl ha
      · rw [hp] at ha
        obtain rfl : x = a := Option.some.inj ha
        exact .inr ⟨goal,left,hp,hbound⟩
  intro a ha b hb id hao hbo hslot hap hbp
  rcases hnew a ha with ha | ⟨goal,left,hp,hbound⟩
  · rcases hnew b hb with hb | ⟨goal,left,hp,hbound⟩
    · exact h.same a ha b hb id hao hbo hslot hap hbp
    · exact (h.committed hf hp hbound ha hbo hao hslot.symm hbp hap).symm
  · rcases hnew b hb with hb | ⟨goal',left',hp',hbound'⟩
    · exact h.committed hf hp hbound hb hao hbo hslot hap hbp
    · rw [hp] at hp'
      cases hp'
      rfl

theorem Priced.step {e : Event} (h : Priced w) (hf : Faithful alloy w) (hat : Attributed w)
    (ht : Traced w) (he : e.Possible w) (hrel : e.Releases w) : Priced (w.step chains e) := by
  cases e with
  | op o =>
    have hkeeps : w.store.KeepsJobs (o.apply w.store) := Op.Possible.keepsJobs he
    have hkept := Op.unfenced_kept (s := w.store) (Op.Possible.unfenced he)
    refine ⟨?_,h.same⟩
    intro b hb id ho
    rcases h.held b hb id ho with hk | hfail
    · exact .inl ((Store.holder_same hkept.slots b.slot).trans hk)
    · exact .inr (hfail.mono hkeeps)
  | mine k m => exact ⟨h.held,h.same⟩
  | restart => exact ⟨h.held,h.same⟩
  | task p i => exact h.turn hf hat ht hrel

end Steps

/-! ## Every run -/

/-- Everything the results about calls rest on. -/
structure Accounted (alloy : Alloy Sig) (w : World) : Prop where
  traced : Traced w
  attributed : Attributed w
  faithful : Faithful alloy w
  priced : Priced w

theorem Accounted.init : Accounted alloy World.init := by
  refine ⟨.init,.init,⟨?_,?_,?_⟩,⟨?_,?_⟩⟩
  · intro a ha
    cases ha
  · rintro p a ⟨⟩
  · rintro p goal a left ⟨⟩
  · intro b hb
    cases hb
  · intro a ha
    cases ha

theorem Accounted.step {w : World} {chains : ChainId → ChainKind} {e : CallEvent}
    (hinv : alloy.Inverts) (h : Accounted alloy w)
    (he : (orderlyCaller alloy chains).allowed w e) :
    Accounted alloy ((orderlyCaller alloy chains).step w e) := by
  obtain ⟨⟨hposs,hissued⟩,hask,hrel⟩ := he
  have ht' : Traced (w.step chains (e.lower alloy w)) := h.traced.step hposs hask
  exact ⟨ht',h.attributed.step h.traced hposs hissued ht',
    h.faithful.step hinv h.attributed h.traced hposs hissued,
    h.priced.step h.faithful h.attributed h.traced hposs hrel⟩

theorem Accounted.reaches {w : World} {chains : ChainId → ChainKind} (hinv : alloy.Inverts)
    (h : (orderlyCaller alloy chains).Reaches World.init w) : Accounted alloy w :=
  h.invariant .init fun _ _ hs he => hs.step hinv he

/-- Every attempt ever committed for a job makes the call of its request, with one gas limit at
each nonce, or only takes up the nonce. -/
structure CallsOnly (alloy : Alloy Sig) (w : World) : Prop where
  calls : ∀ a ∈ w.bound, a.Calls alloy w.store
  gasLimit : ∀ a ∈ w.bound, ∀ b ∈ w.bound, ∀ id, a.owner = .job id → b.owner = .job id →
    a.slot = b.slot → a.purpose = .job → b.purpose = .job → a.gasLimit = b.gasLimit
  sends : ∀ p f, w.tasks p = .sending f → ∃ b ∈ w.bound, f.last.rawTx = b.rawTx ∧
    b.owner = f.owner ∧ b.slot = p.slot f.nonce

theorem signs_only_calls {w : World} {chains : ChainId → ChainKind} (hinv : alloy.Inverts)
    (h : (orderlyCaller alloy chains).Reaches World.init w) : CallsOnly alloy w := by
  have hacc := Accounted.reaches hinv h
  refine ⟨hacc.faithful.calls,hacc.priced.same,?_⟩
  intro p f hp
  have hin : f ∈ (w.tasks p).inFlight := by
    rw [hp]
    rfl
  obtain ⟨hown,⟨b,hb,hrep⟩,-⟩ := (hacc.attributed.owned p).held f hin f.last f.last_mem
  refine ⟨b,hb,hrep.rawTx,hrep.owner.symm.trans hown,?_⟩
  exact hrep.slot.symm.trans ((hacc.traced.own p).held f hin f.last f.last_mem)


/-! ## A run with a replacement after a restart and a cancel -/

instance (s : Store) (i : TxIntent) : Decidable (s.Intends i) :=
  match h : i.owner with
  | .job id => decidable_of_iff (∃ j ∈ s.jobs.rows, j.id = id ∧ i = .ofJob id j.request i.gasLimit ∧
      ∀ g ∈ j.request.gasLimit, i.gasLimit = g) (by rw [Store.Intends,h])
  | .topup id => decidable_of_iff (∃ t ∈ s.topups.rows, t.id = id ∧ i = .ofTopup t i.gasLimit)
      (by rw [Store.Intends,h])

instance (w : World) : DecidablePred (CallEvent.Issued w)
  | .op (.settleInclusion a _ _) => inferInstanceAs (Decidable ((w.tasks a.pair).opens ≠ some a.nonce))
  | .task _ (.execute i _) => inferInstanceAs (Decidable (w.store.Intends i))
  | .task _ (.other (.execute _ _)) | .task _ (.other (.sign _)) => inferInstanceAs (Decidable False)
  | .op (.insertJob _ _) | .op (.createTopup _ _ _ _ _) | .op (.bindAttempt _ _ _)
  | .op (.settleConfirmation _) | .op (.updateInclusionBlock _ _ _ _) | .op (.demoteInclusion _)
  | .op (.voidBinding _ _ _ _ _) | .op (.failJob _ _ _ _ _) | .op (.requeueFront _ _)
  | .op (.cancelQueued _) | .op .acquire | .mine _ _ | .restart | .task _ (.sign _)
  | .task _ (.other (.round _)) | .task _ (.other .deliver) | .task _ (.other (.arrive _ _))
  | .task _ (.other (.answer _)) | .task _ (.other (.lookBack _)) | .task _ (.other (.poll _))
  | .task _ (.other (.escalate _)) | .task _ (.other (.void _ _)) | .task _ (.other .recover)
  | .task _ (.other (.recoverNext _)) | .task _ (.other (.recoverDone _))
  | .task _ (.other .resume) | .task _ (.other .stop) =>
    .isTrue trivial

instance (w : World) (p : PairKey) (call : Call) (now : Nat) :
    Decidable (Event.Releases w (.task p (.void call now))) :=
  match h : w.tasks p with
  | .voiding f .nonceUnused disposition => decidable_of_iff
      (call.voids w.store w.epoch f.last .nonceUnused disposition now = true →
        ∀ j ∈ w.store.jobs.rows, f.owner = .job j.id → j.status ∈ [JobStatus.sent,.cancelling,.failed])
      (by simp only [Event.Releases,h])
  | .voiding f .nonceTakenByForeignTx disposition => .isTrue (by simp only [Event.Releases,h])
  | .down | .paused | .signerUnavailable | .idle | .binding _ _ _ | .sending _ | .polling _
  | .lookingBack _ _ _ | .replacing _ | .cancelling _ | .recovering _ =>
    .isTrue (by simp only [Event.Releases,h])

instance (w : World) : DecidablePred (Event.Releases w)
  | .task _ (.void _ _) => inferInstance
  | .op _ | .mine _ _ | .restart | .task _ (.execute _ _) | .task _ (.round _) | .task _ .deliver
  | .task _ (.arrive _ _) | .task _ (.answer _) | .task _ (.lookBack _) | .task _ (.poll _)
  | .task _ (.escalate _) | .task _ (.sign _) | .task _ .recover | .task _ (.recoverNext _)
  | .task _ (.recoverDone _) | .task _ .resume | .task _ .stop => .isTrue trivial

instance (alloy : Alloy Sig) (chains : ChainId → ChainKind) (w : World) (e : CallEvent) :
    Decidable ((orderlyCaller alloy chains).allowed w e) :=
  inferInstanceAs (Decidable (((e.lower alloy w).Possible w ∧ e.Issued w) ∧
    (e.lower alloy w).AsksOwn w ∧ (e.lower alloy w).Releases w))

namespace Sample

/-- A number, closed by a zero. -/
def putNat (n : Nat) : Bytes := List.replicate n 1 ++ [0]

def getNat : Bytes → Option (Nat × Bytes)
  | [] => none
  | b :: rest => if b = 0 then some (0,rest) else (getNat rest).map fun r => (r.1+1,r.2)

theorem getNat_putNat (n : Nat) (rest : Bytes) : getNat (putNat n ++ rest) = some (n,rest) := by
  induction n with
  | zero => rfl
  | succ n ih =>
    have hcons : putNat (n+1) ++ rest = 1 :: (putNat n ++ rest) := rfl
    rw [hcons,getNat,if_neg (by decide),ih]
    rfl

def putBytes (b : Bytes) : Bytes := putNat b.length ++ b

def getBytes (b : Bytes) : Option (Bytes × Bytes) :=
  (getNat b).bind fun r => if r.1 ≤ r.2.length then some (r.2.take r.1,r.2.drop r.1) else none

theorem getBytes_putBytes (b rest : Bytes) : getBytes (putBytes b ++ rest) = some (b,rest) := by
  rw [putBytes,List.append_assoc,getBytes,getNat_putNat]
  simp

/-- A codec with the fields one after the other, and signatures that name their signer. -/
def codec : Alloy (Address × Nat) where
  signTransaction signer _ random := (signer,random)
  encoded2718 f sig := putNat f.chainId ++ (putNat f.nonce ++ (putNat f.toAddr ++ (putBytes f.data ++
    (putNat f.value ++ (putNat f.gasLimit ++ (putNat f.maxFeePerGas ++
      (putNat f.maxPriorityFeePerGas ++ (putNat sig.1 ++ (putNat sig.2 ++ [])))))))))
  txHash f sig := 100 * f.nonce + 10 * f.maxFeePerGas + sig.2
  decode2718 b := do
    let (chainId,b) ← getNat b
    let (nonce,b) ← getNat b
    let (toAddr,b) ← getNat b
    let (data,b) ← getBytes b
    let (value,b) ← getNat b
    let (gasLimit,b) ← getNat b
    let (maxFeePerGas,b) ← getNat b
    let (maxPriorityFeePerGas,b) ← getNat b
    let (signer,b) ← getNat b
    let (random,_) ← getNat b
    return (⟨chainId,nonce,toAddr,data,value,gasLimit,maxFeePerGas,maxPriorityFeePerGas⟩,signer,random)

theorem codec_inverts : codec.Inverts := by
  intro f sig
  have hlast : getNat (putNat sig.2) = some (sig.2,[]) := by
    rw [← List.append_nil (putNat sig.2),getNat_putNat]
  simp [codec,hlast,getNat_putNat,getBytes_putBytes]

def call : JobRequest := ⟨1,7,[4,2],3,none,none,"https://hook"⟩

def quote (id fee : Nat) : Quote := ⟨id,id,fee,1,2⟩

end Sample

/-- Job 1 is underpriced; the next process replaces its attempt from the stored bytes, walks down
the ladder and cancels the nonce. -/
def resignedRun : List CallEvent :=
  let p := Sample.pair
  let other i := CallEvent.task p (.other i)
  [.op (.insertJob 1 Sample.call),other .recover,other (.recoverDone (some 0)),
    .task p (.execute (.ofJob 1 Sample.call 6) (.ok (Sample.quote 1 5))),other Sample.round,
    other (.answer .accepted),.restart,other .recover,other (.recoverNext .failed),
    other (.answer (.error .feeTooLow "underpriced")),.task p (.sign (some (Sample.quote 2 8))),
    other Sample.round,other (.answer .accepted),other (.escalate ⟨some 0,false,false⟩),
    other (.answer .accepted),other (.escalate ⟨some 0,false,false⟩),
    other (.escalate ⟨some 0,false,false⟩),other (.answer .accepted),
    other (.escalate ⟨some 0,false,false⟩),.task p (.sign (some (Sample.quote 3 9))),
    other Sample.round]

theorem signs_only_calls_resigned :
    ∃ w, (orderlyCaller Sample.codec Sample.chains).Reaches World.init w ∧
      w.bound.map (fun a => (a.purpose,a.gasLimit,decodeTarget Sample.codec a)) =
        [(.cancel,2,some (9,[])),(.job,6,some (7,[4,2])),(.job,6,some (7,[4,2]))] ∧
      CallsOnly Sample.codec w := by
  have hrun : (orderlyCaller Sample.codec Sample.chains).Runs World.init resignedRun := by
    decide +kernel
  exact ⟨_,hrun.reaches,by decide +kernel,signs_only_calls Sample.codec_inverts hrun.reaches⟩

end GumEngine
