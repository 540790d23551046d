import GumEngine.Store.Ops

/-!
# The bind loop of the driver

`TxDriver::bind` retries a bind whose answer is a transient error, and asks
`attempt_exists` whether the failed call had committed after all. The database decides
what each call does and what the caller learns of it.
-/

namespace GumEngine
open Relational

/-- An error after which the driver retries. -/
abbrev Transient := { e : StoreError // e.isTransient = true }

/-- A connection that dies. -/
theorem StoreError.io_transient : StoreError.isTransient (.db .io) = true := rfl

/-- What becomes of a transaction: it is answered; its commit takes place but the
connection dies before the answer; or it fails with an error and writes nothing. -/
inductive Call
  | answered
  | lost (e : Transient)
  | refused (e : StoreError)
deriving DecidableEq

/-- What becomes of an `attempt_exists` call: it is answered, before a commit that is
still under way or after it, or it fails. -/
inductive Ask
  | answered | early | failed
deriving DecidableEq

structure Round where
  call : Call
  ask : Ask
deriving DecidableEq

/-- The answer of a transaction that would do `r`, and the store it leaves. -/
def Call.answer (s : Store) (r : Except StoreError Store) : Call → Except StoreError Unit × Store
  | answered =>
    match r with
    | .ok s' => (.ok (),s')
    | .error e => (.error e,s)
  | lost e => (.error e.val,s.commit r)
  | refused e => (.error e,s)

/-- The answer of a `bind_attempt` call and the store it leaves. -/
def Call.run (s : Store) (epoch : Int) (a : Attempt) (kind : BindKind) (c : Call) :
    Except StoreError Unit × Store :=
  c.answer s (bindAttempt s epoch a kind)

/-- The answer of `attempt_exists`; `s` is the store before the call that failed, `s'` the
one after it. -/
def Ask.run (s s' : Store) (txHash : B256) : Ask → Option Bool
  | answered => some (attemptExists s' txHash)
  | early => some (attemptExists s txHash)
  | failed => none

inductive RoundEnd
  | bound
  | failed (e : StoreError)
  | retry (e : StoreError)
deriving DecidableEq

/-- One pass through the loop body. -/
def Round.run (s : Store) (epoch : Int) (a : Attempt) (kind : BindKind) (r : Round) :
    RoundEnd × Store :=
  match r.call.run s epoch a kind with
  | (.ok (),s') => (.bound,s')
  | (.error e,s') =>
    if e.isTransient then
      if r.ask.run s s' a.txHash = some true then (.bound,s') else (.retry e,s')
    else (.failed e,s')

/-- The loop: round `r` and the `rest` after it; the last round returns its error. -/
def bindRounds (s : Store) (epoch : Int) (a : Attempt) (kind : BindKind) :
    Round → List Round → Except StoreError Unit × Store
  | r,[] =>
    match r.run s epoch a kind with
    | (.bound,s') => (.ok (),s')
    | (.failed e,s') | (.retry e,s') => (.error e,s')
  | r,r' :: rest =>
    match r.run s epoch a kind with
    | (.bound,s') => (.ok (),s')
    | (.failed e,s') => (.error e,s')
    | (.retry _,s') => bindRounds s' epoch a kind r' rest

/-- `TxDriver::bind`: six rounds. -/
def bind (s : Store) (epoch : Int) (a : Attempt) (kind : BindKind) (rounds : Fin 6 → Round) :
    Except StoreError Unit × Store :=
  bindRounds s epoch a kind (rounds 0) [rounds 1,rounds 2,rounds 3,rounds 4,rounds 5]

inductive SignerError
  | unknown (signer : String)
  | sign (message : String)
  | timeout (ms : Nat)
  | init (message : String)
deriving DecidableEq

/-- Why nothing was bound; `execute` never answers with the source's `Rpc` variant. -/
inductive NotBound
  | signer (e : SignerError)
  | ownerGone
  | store (e : StoreError)
deriving DecidableEq

/-- How `execute` gets to its broadcast, or not. -/
inductive Started
  | bound
  | notBound (why : NotBound)
  | aborted
deriving DecidableEq

/-- The first part of `TxDriver::execute`: sign, bind, and advance the pair's nonce once
the binding is stored. -/
def executeStart (s : Store) (epoch : Int) (nextNonce : Nat)
    (signed : Except SignerError Attempt) (rounds : Fin 6 → Round) : Started × Store × Nat :=
  match signed with
  | .error e => (.notBound (.signer e),s,nextNonce)
  | .ok a =>
    match bind s epoch a .first rounds with
    | (.ok (),s') => (.bound,s',nextNonce + 1)
    | (.error (.fenced _),s') => (.aborted,s',nextNonce)
    | (.error (.stateConflict _ _ _),s') => (.notBound .ownerGone,s',nextNonce)
    | (.error e,s') => (.notBound (.store e),s',nextNonce)

section Facts

variable {s s' : Store} {epoch : Int} {a : Attempt} {kind : BindKind}

/-- A bind refuses for good: none of its errors is retried. -/
theorem bindAttempt_error_permanent {e : StoreError}
    (h : bindAttempt s epoch a kind = .error e) : e.isTransient = false := by
  unfold bindAttempt at h
  split at h
  · cases h; rfl
  · split at h
    · cases h; rfl
    · split at h
      · cases h; decide
      · split at h
        · cases h; decide
        · split at h
          · cases h; rfl
          · cases h

theorem attemptExists_bound (h : Bound s epoch a kind s') : attemptExists s' a.txHash = true := by
  rw [attemptExists,h.attempts]
  simp [AttemptRow.ofAttempt]

/-- An attempt whose hash is stored cannot be bound again. -/
theorem attemptExists_fresh (h : Bound s epoch a kind s') : attemptExists s a.txHash = false := by
  rw [attemptExists,List.any_eq_false]
  intro r hr hx
  exact h.fresh r hr (.inr (.inl (of_decide_eq_true hx)))

end Facts

/-! ## When an error means that nothing was bound -/

/-- The caller learns nothing but a transient error. -/
def Call.cutOff : Call → Bool
  | answered => false
  | lost _ => true
  | refused e => e.isTransient

/-- The attempt is stored: a query gets through before a bind call does. -/
def healed : List Round → Bool
  | [] => false
  | r :: rest => r.call.cutOff && (r.ask ≠ .failed || healed rest)

/-- The hash is new, and after a commit whose answer is lost `attempt_exists` is answered
before any further bind call gets through. -/
def Acknowledged (s : Store) (epoch : Int) (a : Attempt) (kind : BindKind) : List Round → Bool
  | [] => true
  | r :: rest =>
    if attemptExists s a.txHash then healed (r :: rest)
    else
      match r.call with
      | .answered => true
      | .refused e => !e.isTransient || Acknowledged s epoch a kind rest
      | .lost _ =>
        match bindAttempt s epoch a kind with
        | .ok _ => r.ask = .answered || healed rest
        | .error _ => Acknowledged s epoch a kind rest

section Loop

variable {s : Store} {epoch : Int} {a : Attempt} {kind : BindKind}

/-- With the hash stored no call writes: what an uncut call answers is a refusal. -/
theorem Round.run_stored (hs : attemptExists s a.txHash = true) (epoch : Int) (kind : BindKind)
    (r : Round) :
    (r.run s epoch a kind).2 = s ∧
      match (r.run s epoch a kind).1 with
      | .bound => r.call.cutOff = true ∧ r.ask ≠ .failed
      | .failed _ => r.call.cutOff = false
      | .retry _ => r.call.cutOff = true ∧ r.ask = .failed := by
  cases hb : bindAttempt s epoch a kind with
  | ok s' =>
    rw [attemptExists_fresh (bindAttempt_spec hb)] at hs
    cases hs
  | error e =>
    have hp := bindAttempt_error_permanent hb
    obtain ⟨call,ask⟩ := r
    cases call with
    | answered => simp [Round.run,Call.run,Call.answer,hb,hp,Call.cutOff]
    | lost e' =>
      cases ask <;>
        simp [Round.run,Call.run,Call.answer,hb,Store.commit,Ask.run,hs,e'.property,Call.cutOff]
    | refused e' =>
      by_cases ht : e'.isTransient = true
      · cases ask <;> simp [Round.run,Call.run,Call.answer,Ask.run,hs,ht,Call.cutOff]
      · simp [Round.run,Call.run,Call.answer,ht,Call.cutOff]

/-- With the hash stored the loop succeeds iff a query gets through in time. -/
theorem bindRounds_stored (hs : attemptExists s a.txHash = true) (epoch : Int)
    (kind : BindKind) (r : Round) (rest : List Round) :
    (bindRounds s epoch a kind r rest).2 = s ∧
      ((bindRounds s epoch a kind r rest).1 = .ok () ↔ healed (r :: rest) = true) := by
  induction rest generalizing r with
  | nil =>
    obtain ⟨hst,hend⟩ := Round.run_stored hs epoch kind r
    unfold bindRounds
    cases hr : r.run s epoch a kind with
    | mk res s' =>
      rw [hr] at hst hend
      cases res <;> simp_all [healed]
  | cons r' rest ih =>
    obtain ⟨hst,hend⟩ := Round.run_stored hs epoch kind r
    unfold bindRounds
    cases hr : r.run s epoch a kind with
    | mk res s' =>
      rw [hr] at hst hend
      dsimp only at hst
      subst hst
      cases res with
      | bound => simp_all [healed]
      | failed e => simp_all [healed]
      | retry e =>
        obtain ⟨hc,ha⟩ := hend
        rw [show healed (r :: r' :: rest) = healed (r' :: rest) by simp [healed,hc,ha]]
        exact ih r'

/-- What an error of the loop must mean. -/
def NothingBound (s : Store) (a : Attempt) (res : Except StoreError Unit × Store) : Prop :=
  ∀ e, res.1 = .error e → attemptExists res.2 a.txHash = false ∧ res.2 = s

theorem nothingBound_ok (s s' : Store) (a : Attempt) : NothingBound s a (.ok (),s') := by
  intro e he
  cases he

/-- Once stored, only a success keeps the promise. -/
theorem nothingBound_stored {s₀ : Store} (hs : attemptExists s a.txHash = true) (r : Round)
    (rest : List Round) :
    NothingBound s₀ a (bindRounds s epoch a kind r rest) ↔ healed (r :: rest) = true := by
  obtain ⟨hst,hok⟩ := bindRounds_stored hs epoch kind r rest
  rw [← hok]
  constructor
  · intro h
    cases hres : (bindRounds s epoch a kind r rest).1 with
    | ok u => rfl
    | error e =>
      have := (h e hres).1
      rw [hst,hs] at this
      cases this
  · intro h e he
    rw [h] at he
    cases he

/-- A round that leaves the store alone and is retried. -/
theorem Round.run_retry (hs : attemptExists s a.txHash = false) {r : Round} {e : StoreError}
    (hr : r.call.run s epoch a kind = (.error e,s)) (he : e.isTransient = true) :
    r.run s epoch a kind = (.retry e,s) := by
  obtain ⟨call,ask⟩ := r
  dsimp only at hr
  cases ask <;> simp [Round.run,hr,he,Ask.run,hs]

theorem nothingBound_retry {r : Round} {rest : List Round} {e : StoreError}
    (hs : attemptExists s a.txHash = false)
    (hr : r.run s epoch a kind = (.retry e,s))
    (ih : ∀ r' rest', rest = r' :: rest' →
      (NothingBound s a (bindRounds s epoch a kind r' rest') ↔
        Acknowledged s epoch a kind (r' :: rest') = true)) :
    NothingBound s a (bindRounds s epoch a kind r rest) ↔
      Acknowledged s epoch a kind rest = true := by
  cases rest with
  | nil =>
    unfold bindRounds
    rw [hr]
    simp [NothingBound,Acknowledged,hs]
  | cons r' rest' =>
    unfold bindRounds
    rw [hr]
    exact ih r' rest' rfl

theorem bindRounds_bound {r : Round} {rest : List Round} {s' : Store}
    (hr : r.run s epoch a kind = (.bound,s')) :
    bindRounds s epoch a kind r rest = (.ok (),s') := by
  cases rest <;> simp [bindRounds,hr]

theorem bindRounds_failed {r : Round} {rest : List Round} {s' : Store} {e : StoreError}
    (hr : r.run s epoch a kind = (.failed e,s')) :
    bindRounds s epoch a kind r rest = (.error e,s') := by
  cases rest <;> simp [bindRounds,hr]

/-- The first commit whose answer is lost: from then on the hash is stored. -/
theorem nothingBound_lost {r : Round} {rest : List Round} {s' : Store} {e : Transient}
    (hs : attemptExists s a.txHash = false) (hc : r.call = .lost e)
    (hb : bindAttempt s epoch a kind = .ok s') :
    NothingBound s a (bindRounds s epoch a kind r rest) ↔
      (r.ask = .answered || healed rest) = true := by
  have hs' := attemptExists_bound (bindAttempt_spec hb)
  obtain ⟨call,ask⟩ := r
  obtain rfl : call = .lost e := hc
  by_cases ha : ask = .answered
  · subst ha
    have hr : Round.run s epoch a kind ⟨.lost e,.answered⟩ = (.bound,s') := by
      simp [Round.run,Call.run,Call.answer,hb,Store.commit,Ask.run,hs',e.property]
    rw [bindRounds_bound hr]
    simp [nothingBound_ok]
  · have hr : Round.run s epoch a kind ⟨.lost e,ask⟩ = (.retry e.val,s') := by
      cases ask with
      | answered => exact absurd rfl ha
      | early => simp [Round.run,Call.run,Call.answer,hb,Store.commit,Ask.run,hs,e.property]
      | failed => simp [Round.run,Call.run,Call.answer,hb,Store.commit,Ask.run,e.property]
    simp only [ha,decide_false,Bool.false_or]
    cases rest with
    | nil =>
      unfold bindRounds
      rw [hr]
      simp [NothingBound,healed,hs']
    | cons r' rest' =>
      unfold bindRounds
      rw [hr]
      exact nothingBound_stored hs' r' rest'

theorem nothingBound_step (r : Round) (rest : List Round)
    (ih : ∀ r' rest', rest = r' :: rest' →
      (NothingBound s a (bindRounds s epoch a kind r' rest') ↔
        Acknowledged s epoch a kind (r' :: rest') = true)) :
    NothingBound s a (bindRounds s epoch a kind r rest) ↔
      Acknowledged s epoch a kind (r :: rest) = true := by
  cases hs : attemptExists s a.txHash with
  | true =>
    rw [nothingBound_stored hs,Acknowledged,if_pos hs]
  | false =>
    rw [Acknowledged,if_neg (by simp [hs])]
    cases hc : r.call with
    | answered =>
      cases hb : bindAttempt s epoch a kind with
      | ok s' =>
        have hr : r.run s epoch a kind = (.bound,s') := by simp [Round.run,hc,Call.run,Call.answer,hb]
        simp [bindRounds_bound hr,nothingBound_ok]
      | error e =>
        have hr : r.run s epoch a kind = (.failed e,s) := by
          simp [Round.run,hc,Call.run,Call.answer,hb,bindAttempt_error_permanent hb]
        simp [bindRounds_failed hr,NothingBound,hs]
    | refused e =>
      cases ht : e.isTransient with
      | true =>
        have hr : r.run s epoch a kind = (.retry e,s) :=
          Round.run_retry hs (by rw [hc]; rfl) ht
        simpa [ht] using nothingBound_retry hs hr ih
      | false =>
        have hr : r.run s epoch a kind = (.failed e,s) := by simp [Round.run,hc,Call.run,Call.answer,ht]
        simp [bindRounds_failed hr,NothingBound,hs,ht]
    | lost e =>
      cases hb : bindAttempt s epoch a kind with
      | ok s' => exact nothingBound_lost hs hc hb
      | error e' =>
        have hr : r.run s epoch a kind = (.retry e.val,s) :=
          Round.run_retry hs (by rw [hc]; simp [Call.run,Call.answer,hb,Store.commit]) e.property
        exact nothingBound_retry hs hr ih

theorem bindRounds_nothingBound (r : Round) (rest : List Round) :
    NothingBound s a (bindRounds s epoch a kind r rest) ↔
      Acknowledged s epoch a kind (r :: rest) = true := by
  induction rest generalizing r with
  | nil => exact nothingBound_step r [] fun r' rest' h => by cases h
  | cons r₁ rest ih =>
    refine nothingBound_step r (r₁ :: rest) ?_
    intro r' rest' h
    cases h
    exact ih r₁

theorem Call.run_store (c : Call) (s : Store) (epoch : Int) (a : Attempt) (kind : BindKind) :
    (c.run s epoch a kind).2 = s ∨ Bound s epoch a kind (c.run s epoch a kind).2 := by
  cases c with
  | answered =>
    unfold Call.run Call.answer
    cases hb : bindAttempt s epoch a kind with
    | ok s' => exact .inr (bindAttempt_spec hb)
    | error e => exact .inl rfl
  | lost e =>
    unfold Call.run Call.answer
    cases hb : bindAttempt s epoch a kind with
    | ok s' => exact .inr (bindAttempt_spec hb)
    | error e => exact .inl rfl
  | refused e => exact .inl rfl

theorem Round.run_store (r : Round) (s : Store) (epoch : Int) (a : Attempt) (kind : BindKind) :
    (r.run s epoch a kind).2 = (r.call.run s epoch a kind).2 := by
  unfold Round.run
  split
  · next h => rw [h]
  · next h =>
    rw [h]
    split
    · split <;> rfl
    · rfl

/-- The loop writes nothing but the one attempt. -/
theorem bindRounds_store (r : Round) (rest : List Round) :
    (bindRounds s epoch a kind r rest).2 = s ∨
      attemptExists (bindRounds s epoch a kind r rest).2 a.txHash = true := by
  induction rest generalizing s r with
  | nil =>
    have hst := r.run_store s epoch a kind
    have hc := r.call.run_store s epoch a kind
    have h2 : (bindRounds s epoch a kind r []).2 = (r.run s epoch a kind).2 := by
      unfold bindRounds
      cases r.run s epoch a kind with
      | mk res s' => cases res <;> rfl
    rw [h2,hst]
    exact hc.imp_right attemptExists_bound
  | cons r' rest ih =>
    have hst := r.run_store s epoch a kind
    have hc := r.call.run_store s epoch a kind
    rw [← hst] at hc
    unfold bindRounds
    cases hr : r.run s epoch a kind with
    | mk res s' =>
      rw [hr] at hc
      cases res with
      | bound => exact hc.imp_right attemptExists_bound
      | failed e => exact hc.imp_right attemptExists_bound
      | retry e =>
        rcases hc with rfl | hb
        · exact ih r'
        · -- stored by this round: no later round writes
          have hs' := attemptExists_bound hb
          refine .inr ?_
          dsimp only
          rw [(bindRounds_stored hs' epoch kind r' rest).1]
          exact hs'

end Loop

/-- An error of `bind` means that no attempt with the hash is stored; and a transaction
reported as not bound leaves store and next nonce as they were, so its owner is in its
initial state and its slot as free as before. -/
structure BindReports (s : Store) (epoch : Int) (a : Attempt) (kind : BindKind)
    (rounds : Fin 6 → Round) : Prop where
  error : ∀ e, (bind s epoch a kind rounds).1 = .error e →
    attemptExists (bind s epoch a kind rounds).2 a.txHash = false
  notBound : kind = .first → ∀ why nextNonce,
    (executeStart s epoch nextNonce (.ok a) rounds).1 = .notBound why →
    (executeStart s epoch nextNonce (.ok a) rounds).2 = (s,nextNonce)

theorem executeStart_notBound {s : Store} {epoch : Int} {a : Attempt} {rounds : Fin 6 → Round}
    {why : NotBound} {nextNonce : Nat}
    (h : (executeStart s epoch nextNonce (.ok a) rounds).1 = .notBound why) :
    ∃ e, (bind s epoch a .first rounds).1 = .error e ∧
      (executeStart s epoch nextNonce (.ok a) rounds).2 =
        ((bind s epoch a .first rounds).2,nextNonce) := by
  simp only [executeStart] at h ⊢
  cases hb : bind s epoch a .first rounds with
  | mk res s' =>
    rw [hb] at h
    cases res with
    | ok u => cases h
    | error e =>
      cases e with
      | fenced mine => cases h
      | _ => exact ⟨_,rfl,rfl⟩

/-- `bind` keeps its promise exactly when no lost commit goes unnoticed. -/
theorem bind_reports_iff (s : Store) (epoch : Int) (a : Attempt) (kind : BindKind)
    (rounds : Fin 6 → Round) :
    BindReports s epoch a kind rounds ↔
      Acknowledged s epoch a kind
        [rounds 0,rounds 1,rounds 2,rounds 3,rounds 4,rounds 5] = true := by
  rw [← bindRounds_nothingBound]
  constructor
  · intro h e he
    have hno := h.error e he
    refine ⟨hno,?_⟩
    rcases bindRounds_store (rounds 0) [rounds 1,rounds 2,rounds 3,rounds 4,rounds 5] with hst | hst
    · exact hst
    · exact absurd (hst.symm.trans hno) (by decide)
  · intro h
    refine ⟨fun e he => (h e he).1,?_⟩
    rintro rfl why nextNonce hnb
    obtain ⟨e,he,hst⟩ := executeStart_notBound hnb
    rw [hst]
    exact congrArg (·,nextNonce) (h e he).2

/-- The connection dies at the commit and with it the existence query; the retry finds the
slot taken by the very attempt it wants to bind. -/
def lostRounds : Fin 6 → Round
  | 0 => ⟨.lost ⟨.db .io,StoreError.io_transient⟩,.failed⟩
  | _ => ⟨.answered,.answered⟩

theorem bind_loses_commit :
    ∃ s, (∃ j ∈ s.jobs.rows, j.status = .queued) ∧
      (bind s 0 (Sample.attempt 3 0 .job (.job 1)) .first lostRounds).1 =
        .error (.nonceSlotTaken 1 9 0) ∧
      attemptExists (bind s 0 (Sample.attempt 3 0 .job (.job 1)) .first lostRounds).2 3 = true ∧
      ¬ BindReports s 0 (Sample.attempt 3 0 .job (.job 1)) .first lostRounds := by
  refine ⟨Op.apply Store.empty (.insertJob 1 Sample.request),by decide,by decide,by decide,?_⟩
  intro h
  have := h.error (.nonceSlotTaken 1 9 0) (by decide)
  revert this
  decide

end GumEngine
