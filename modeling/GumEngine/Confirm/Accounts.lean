import GumEngine.Confirm.Tracking

/-!
# Each inclusion is accounted once

`pipeline/accounting.rs` moves the counters of a job when it is mined, confirmed or demoted.
The writes to the store repeat without harm, the counters do not: they are right as long as
one check at a time runs for a job, recovery only demotes what is still included, and an
inclusion that was counted is written.
-/

namespace GumEngine
open Relational Transition

/-- The attempt is the job's own transaction. -/
def Attempt.executes (j : JobId) (a : Attempt) : Bool := a.owner = .job j && a.purpose = .job

/-- The counters moved for job `j`. -/
@[simp] def Note.accounts (t : Account) (j : JobId) : Note → Bool
  | accounted t' a => t' = t && a.executes j
  | _ => false

@[simp] def Note.includes (j : JobId) : Note → Bool
  | included a => a.executes j
  | _ => false

@[simp] def Note.demotes (j : JobId) : Note → Bool
  | demoted a _ _ => a.executes j
  | _ => false

def SettleOp.includes (j : JobId) : SettleOp → Bool
  | inclusion a _ _ => a.executes j
  | _ => false

def Worker.settles (j : JobId) : Worker → Bool
  | settling a _ _ => a.executes j
  | _ => false

/-- How often something was noted since this process started. -/
def tally (p : Note → Bool) (l : List Note) : Nat :=
  (l.takeWhile fun n => n ≠ .restarted).countP p

namespace Engine

def accounted (e : Engine) (t : Account) (j : JobId) : Nat := tally (Note.accounts t j) e.log

/-- Inclusions and demotions applied in the store. -/
def applied (e : Engine) (j : JobId) : Nat := tally (Note.includes j) e.log
def demotions (e : Engine) (j : JobId) : Nat := tally (Note.demotes j) e.log

/-- The checks of the job that the verifier has. -/
def checks (e : Engine) (j : JobId) : Nat := e.items.countP fun i => i.attempt.executes j

/-- The counters of a job, compared with the store; an inclusion may still be queued. -/
structure CountedOnce (e : Engine) (j : JobId) : Prop where
  mined : e.accounted .mined j ≤ e.applied j + e.queue.countP (SettleOp.includes j)
  demoted : e.accounted .demoted j ≤ e.demotions j
  confirmed : e.accounted .confirmed j ≤ 1

end Engine

/-! ## The condition -/

def Worker.undoing : Worker → Option Attempt
  | demoting a _ _ => some a
  | _ => none

namespace Engine

/-- No check runs for the job of `a`, none is about to be started, and none has succeeded. -/
def Unclaimed (e : Engine) (a : Attempt) : Prop :=
  a.purpose = .job → ∀ j, a.owner = .job j → e.accounted .confirmed j + e.checks j = 0 ∧
    ∀ r ∈ e.store.txAttempts.rows, (e.workers r.signer).settles j = false

/-- The write applies: it is neither refused for good, nor does it find the attempt in a
state other than `broadcast`. -/
def Applies (e : Engine) (call : Call) : SettleOp → Prop
  | .inclusion a inc now => a.purpose = .job → call.permanent = false ∧
      (call.reaches = true → ((SettleOp.inclusion a inc now).run e.store).map Prod.fst = .ok .applied)
  | _ => True

/-- One check at a time, and nothing is counted that the store does not do. -/
def Event.Matched (chain : ChainCtx) (e : Engine) : Event → Prop
  | .receipt p r => ∀ x ∈ e.placed chain (.receipt p r), e.Unclaimed x.1
  | .look p answer => ∀ x ∈ e.placed chain (.look p answer), e.Unclaimed x.1
  | .undo p call => call = .answered → ∀ a ∈ (e.workers p).undoing, a.purpose = .job →
      ∃ r ∈ e.store.txAttempts.rows, r.id = a.id ∧ r.status = .included
  | .write call _ => e.written = false → ∀ op ∈ e.queue.head?, e.Applies call op
  | _ => True

end Engine

/-! ## Sums -/

/-- What is left to be written of the queue. -/
def unwritten (written : Bool) (q : List SettleOp) : List SettleOp := if written then q.tail else q

def Engine.toApply (e : Engine) (j : JobId) : Nat :=
  (unwritten e.written e.queue).countP (SettleOp.includes j)

section Sums

variable {p : Note → Bool} {n : Note} {l new : List Note} {written : Bool} {q : List SettleOp}
  {op : SettleOp} {j : JobId}

theorem tally_cons (h : n ≠ .restarted) : tally p (n :: l) = tally p l + if p n then 1 else 0 := by
  unfold tally
  rw [List.takeWhile_cons_of_pos (by simpa using h),List.countP_cons]

theorem tally_append (h : .restarted ∉ new) : tally p (new ++ l) = new.countP p + tally p l := by
  induction new with
  | nil => simp
  | cons n new ih =>
    have hn : n ≠ .restarted := fun hx => h (hx ▸ List.mem_cons_self)
    rw [List.cons_append,tally_cons hn,ih fun hm => h (List.mem_cons_of_mem _ hm),List.countP_cons]
    omega

theorem tally_restarted : tally p (.restarted :: l) = 0 := by
  unfold tally
  rw [List.takeWhile_cons_of_neg (by simp)]
  rfl

/-- A write is queued behind what is left. -/
theorem unwritten_push (h : written = true → q ≠ []) :
    unwritten written (q ++ [op]) = unwritten written q ++ [op] := by
  cases written with
  | false => rfl
  | true =>
    cases q with
    | nil => exact absurd rfl (h rfl)
    | cons o q => rfl

theorem unwritten_countP (p : SettleOp → Bool) :
    (unwritten written q).countP p ≤ q.countP p := by
  cases written with
  | false => exact le_rfl
  | true => exact (List.tail_sublist q).countP_le

end Sums

/-- Every counter is backed by the store; one that is about to move is backed too. -/
structure Accounts (e : Engine) : Prop where
  mined : ∀ j, e.accounted .mined j ≤ e.applied j + e.toApply j
  demoted : ∀ j, e.accounted .demoted j ≤ e.demotions j
  checked : ∀ j, e.accounted .confirmed j + e.checks j ≤ 1
  settling : ∀ j p, (e.workers p).settles j = true →
    e.accounted .mined j + 1 ≤ e.applied j + e.toApply j ∧
      e.accounted .confirmed j + e.checks j = 0 ∧ ∀ q, (e.workers q).settles j = true → q = p
  head : e.written = true → e.queue ≠ []

section Steps

variable {chain : ChainCtx} {c : ChainId} {e e' : Engine} {ev : Engine.Event}

/-- No new claim on a counter. -/
theorem Accounts.of (h : Accounts e)
    (hm : ∀ j, e'.accounted .mined j ≤ e.accounted .mined j)
    (ha : ∀ j, e.applied j + e.toApply j ≤ e'.applied j + e'.toApply j)
    (hd : ∀ j, e'.accounted .demoted j + e.demotions j ≤ e.accounted .demoted j + e'.demotions j)
    (hc : ∀ j, e'.accounted .confirmed j + e'.checks j ≤ e.accounted .confirmed j + e.checks j)
    (hw : ∀ j p, (e'.workers p).settles j = true → (e.workers p).settles j = true)
    (hh : e'.written = true → e'.queue ≠ []) : Accounts e' := by
  refine ⟨?_,?_,?_,?_,hh⟩
  · intro j
    exact (hm j).trans ((h.mined j).trans (ha j))
  · intro j
    have h1 := h.demoted j
    have h2 := hd j
    omega
  · intro j
    exact (hc j).trans (h.checked j)
  · intro j p hp
    obtain ⟨h1,h2,h3⟩ := h.settling j p (hw j p hp)
    have h4 := hm j
    have h5 := ha j
    have h6 := hc j
    exact ⟨by omega,by omega,fun q hq => h3 q (hw j q hq)⟩

/-- The log stays as it is. -/
theorem Accounts.quiet (h : Accounts e) (hl : e'.log = e.log)
    (ha : ∀ j, e.toApply j ≤ e'.toApply j) (hc : ∀ j, e'.checks j ≤ e.checks j)
    (hw : ∀ j p, (e'.workers p).settles j = true → (e.workers p).settles j = true)
    (hh : e'.written = true → e'.queue ≠ []) : Accounts e' := by
  have hacc : ∀ t j, e'.accounted t j = e.accounted t j := by
    intro t j
    unfold Engine.accounted
    rw [hl]
  have happ : ∀ j, e'.applied j = e.applied j := by
    intro j
    unfold Engine.applied
    rw [hl]
  have hdem : ∀ j, e'.demotions j = e.demotions j := by
    intro j
    unfold Engine.demotions
    rw [hl]
  refine h.of (fun j => (hacc _ j).le) ?_ ?_ ?_ hw hh
  · intro j
    rw [happ]
    exact Nat.add_le_add_left (ha j) _
  · intro j
    rw [hacc,hdem]
  · intro j
    rw [hacc]
    exact Nat.add_le_add_left (hc j) _

/-- A worker that does not enter `settle`. -/
theorem settles_update {w : Worker} {p : Address} (hw : ∀ j, w.settles j = false) (j : JobId)
    (q : Address) (h : (Function.update e.workers p w q).settles j = true) :
    (e.workers q).settles j = true := by
  by_cases hq : q = p
  · subst hq
    rw [Function.update_self,hw] at h
    cases h
  · rwa [Function.update_of_ne hq] at h

theorem Engine.next_settles (todo : Option (List (List Attempt))) (j : JobId) :
    (Engine.next todo).settles j = false := by
  cases todo <;> rfl

theorem Engine.resending_settles (group : List Attempt) (todo : List (List Attempt)) (j : JobId) :
    (Engine.resending group todo).settles j = false := by
  rcases Engine.resending_cases group todo with h | h <;> rw [h] <;> rfl

theorem countP_eraseIdx {α : Type} {l : List α} {k : Nat} {x : α} (p : α → Bool)
    (h : l[k]? = some x) : l.countP p = (l.eraseIdx k).countP p + if p x then 1 else 0 := by
  obtain ⟨hk,rfl⟩ := List.getElem?_eq_some_iff.mp h
  have hperm := List.getElem_cons_eraseIdx_perm hk
  rw [← hperm.countP_eq,List.countP_cons]

/-- The head of the queue is done with; if it was not written yet, it is now. -/
theorem toApply_pop {op : SettleOp} {rest : List SettleOp} {j : JobId} (hq : e.queue = op :: rest) :
    e.toApply j = rest.countP (SettleOp.includes j) +
      if e.written = false ∧ op.includes j = true then 1 else 0 := by
  unfold Engine.toApply unwritten
  rw [hq]
  cases hw : e.written with
  | true => simp
  | false => simp [List.countP_cons]

theorem toApply_push {op : SettleOp} {j : JobId} (h : Accounts e) (hw : e'.written = e.written)
    (hq : e'.queue = e.queue ++ [op]) :
    e'.toApply j = e.toApply j + if op.includes j then 1 else 0 := by
  unfold Engine.toApply
  rw [hw,hq,unwritten_push h.head,List.countP_append,List.countP_singleton]

/-! ## The notes of a step -/

/-- What a list of notes adds to the tallies. -/
theorem tallies_append {new : List Note} (hl : e'.log = new ++ e.log) (hr : .restarted ∉ new) :
    (∀ t j, e'.accounted t j = new.countP (Note.accounts t j) + e.accounted t j) ∧
      (∀ j, e'.applied j = new.countP (Note.includes j) + e.applied j) ∧
      ∀ j, e'.demotions j = new.countP (Note.demotes j) + e.demotions j := by
  unfold Engine.accounted Engine.applied Engine.demotions
  rw [hl]
  exact ⟨fun t j => tally_append hr,fun j => tally_append hr,fun j => tally_append hr⟩

theorem notes_counts (op : SettleOp) (s : Store) (st : Settled) (j : JobId) :
    .restarted ∉ op.notes s st ∧ (∀ t, (op.notes s st).countP (Note.accounts t j) = 0) ∧
      (op.notes s st).countP (Note.demotes j) = 0 ∧
      (op.notes s st).countP (Note.includes j) =
        if st = .applied ∧ op.includes j = true then 1 else 0 := by
  cases op with
  | inclusion a inc now =>
    cases st with
    | applied =>
      cases hx : a.executes j <;>
        simp [SettleOp.includes,hx]
    | noop => simp
  | confirmation a found =>
    cases st <;> simp [SettleOp.includes]
  | flush w => simp [SettleOp.includes]

theorem demotion_counts (s : Store) (a : Attempt) (observed : StoredBlock) (j : JobId) :
    .restarted ∉ s.demotion a observed ∧ (∀ t, (s.demotion a observed).countP (Note.accounts t j) = 0) ∧
      (s.demotion a observed).countP (Note.includes j) = 0 ∧
      (s.demotion a observed).countP (Note.demotes j) =
        if (demoteInclusion s a).1 = .applied ∧ a.executes j = true then 1 else 0 := by
  unfold Store.demotion
  split
  · next ha => cases hx : a.executes j <;> simp [ha,hx]
  · next ha => simp [ha]

theorem noted_counts (e : Engine) (call : Call) (a : Attempt) (observed : StoredBlock) (j : JobId) :
    .restarted ∉ e.noted call a observed ∧
      (∀ t, (e.noted call a observed).countP (Note.accounts t j) = 0) ∧
      (e.noted call a observed).countP (Note.includes j) = 0 := by
  obtain ⟨h1,h2,h3,-⟩ := demotion_counts e.store a observed j
  unfold Engine.noted
  split
  · exact ⟨h1,h2,h3⟩
  · exact ⟨List.not_mem_nil,fun _ => rfl,rfl⟩

theorem undoing_counts (e : Engine) (item : PendingConfirmation) (j : JobId) :
    .restarted ∉ e.undoing item ∧
      (e.undoing item).countP (Note.accounts .mined j) = 0 ∧
      (e.undoing item).countP (Note.accounts .confirmed j) = 0 ∧
      (e.undoing item).countP (Note.includes j) = 0 ∧
      (e.undoing item).countP (Note.accounts .demoted j) = (e.undoing item).countP (Note.demotes j) := by
  obtain ⟨h1,h2,h3,h4⟩ := demotion_counts e.store item.attempt item.block j
  unfold Engine.undoing
  simp only [List.countP_append,h2,h3,h4,List.mem_append,h1,or_false,Nat.add_zero]
  split
  · next ha => simp [ha]
  · next ha => simp [ha]

/-- A row that is included is demoted. -/
theorem demote_applied {s : Store} {a : Attempt}
    (h : ∃ r ∈ s.txAttempts.rows, r.id = a.id ∧ r.status = .included) :
    (demoteInclusion s a).1 = .applied := by
  obtain ⟨r,hr,hid,hin⟩ := h
  rcases demoteInclusion_spec s a with hx | ⟨hx,-⟩
  · have hgone := demoted_gone s a r (by rw [hx]; exact hr) hid
    exact absurd hin hgone
  · exact hx

theorem Engine.Applies.of_includes {call : Call} {op : SettleOp} {j : JobId}
    (h : e.Applies call op) (hop : op.includes j = true) : call.permanent = false ∧
      (call.reaches = true → (op.run e.store).map Prod.fst = .ok .applied) := by
  cases op with
  | inclusion a inc now =>
    refine h ?_
    simp only [SettleOp.includes,Attempt.executes,Bool.and_eq_true,decide_eq_true_eq] at hop
    exact hop.2
  | confirmation a found => cases hop
  | flush w => cases hop

/-- A worker inside `settle` is one of a signer whose attempts are stored. -/
theorem Held.settles_stored (h : Held c e) {p : Address} {j : JobId}
    (hp : (e.workers p).settles j = true) : ∃ r ∈ e.store.txAttempts.rows, r.signer = p := by
  cases hw : e.workers p with
  | settling a inc todo =>
    obtain ⟨⟨-,r,hr,hid,hof⟩,hsig⟩ := h.workers p a (by rw [hw]; exact List.mem_cons_self)
    exact ⟨r,hr,(congrArg Slot.signer hof.slot).trans hsig⟩
  | _ =>
    rw [hw] at hp
    cases hp

theorem Engine.Unclaimed.of_executes {a : Attempt} {j : JobId} (h : e.Unclaimed a)
    (hheld : Held c e) (ha : a.executes j = true) : e.accounted .confirmed j + e.checks j = 0 ∧
      ∀ p, (e.workers p).settles j = false := by
  simp only [Attempt.executes,Bool.and_eq_true,decide_eq_true_eq] at ha
  obtain ⟨hzero,hnone⟩ := h ha.2 j ha.1
  refine ⟨hzero,?_⟩
  intro p
  by_contra hp
  obtain ⟨r,hr,hsig⟩ := hheld.settles_stored (Bool.of_not_eq_false hp)
  rw [← hsig] at hp
  exact hp (hnone r hr)

/-- A worker enters `settle`: the inclusion that will be counted is queued. -/
theorem Accounts.settled (h : Accounts e) (hheld : Held c e) {a : Attempt} (hfree : e.Unclaimed a)
    {p : Address} {inc : Inclusion} {now : Bool} {todo : Option (List (List Attempt))} :
    Accounts ((e.push (.inclusion a inc now)).setWorker p (.settling a inc todo)) := by
  have hpush : ∀ j, ((e.push (.inclusion a inc now)).setWorker p (.settling a inc todo)).toApply j =
      e.toApply j + if SettleOp.includes j (.inclusion a inc now) then 1 else 0 := by
    intro j
    refine toApply_push h ?_ ?_ <;> rfl
  have hother : ∀ q, q ≠ p → Function.update e.workers p (.settling a inc todo) q = e.workers q :=
    fun q hne => Function.update_of_ne hne _ _
  refine ⟨?_,h.demoted,h.checked,?_,?_⟩
  · intro j
    rw [hpush]
    have hm := h.mined j
    show e.accounted .mined j ≤ e.applied j + _
    omega
  · intro j q hq
    rw [hpush]
    show e.accounted .mined j + 1 ≤ e.applied j + _ ∧ e.accounted .confirmed j + e.checks j = 0 ∧ _
    by_cases ha : a.executes j = true
    · -- nobody else is inside `settle` for this job
      obtain ⟨hzero,hnone⟩ := hfree.of_executes hheld ha
      have honly : ∀ x, (Function.update e.workers p (.settling a inc todo) x).settles j = true →
          x = p := by
        intro x hx
        by_contra hne
        rw [hother x hne,hnone] at hx
        cases hx
      have hm := h.mined j
      have hone : (SettleOp.inclusion a inc now).includes j = true := ha
      rw [if_pos hone]
      exact ⟨by omega,hzero,fun x hx => (honly x hx).trans (honly q hq).symm⟩
    · have hold : ∀ x, (Function.update e.workers p (.settling a inc todo) x).settles j = true →
          (e.workers x).settles j = true := by
        intro x hx
        by_cases hxp : x = p
        · subst hxp
          rw [Function.update_self] at hx
          exact absurd hx ha
        · rwa [hother x hxp] at hx
      obtain ⟨h1,h2,h3⟩ := h.settling j q (hold q hq)
      exact ⟨by omega,h2,fun x hx => h3 x (hold x hx)⟩
  · exact fun _ => List.append_ne_nil_of_right_ne_nil _ (List.cons_ne_nil _ [])

/-- The verifier gets one more check. -/
theorem checks_submit (i : PendingConfirmation) (j : JobId) :
    (e.submit i).checks j = e.checks j + if i.attempt.executes j then 1 else 0 := by
  unfold Engine.checks Engine.items
  simp only [Engine.submit_pending,Engine.submit_missing,List.countP_append,List.countP_singleton]
  omega

/-- The verifier gets the check of an inclusion that is counted now. -/
theorem Accounts.handedOver (h : Accounts e) {p : Address} {a : Attempt} {inc : Inclusion}
    {todo : Option (List (List Attempt))} (hw : e.workers p = .settling a inc todo) :
    Accounts ((((e.submit ⟨a,inc,0⟩).setPair p fun q =>
      (q.resumeIf .stuckUnresolved).resumeIf .insufficientFunds).account .mined a).setWorker p
      (Engine.next todo)) := by
  obtain ⟨hacc,happ,hdem⟩ := tallies_append (show (((((e.submit ⟨a,inc,0⟩).setPair p fun q =>
      (q.resumeIf .stuckUnresolved).resumeIf .insufficientFunds).account .mined a).setWorker p
      (Engine.next todo))).log = [.accounted .mined a] ++ e.log from rfl) (by simp)
  have hchecks : ∀ j, ((((e.submit ⟨a,inc,0⟩).setPair p fun q =>
      (q.resumeIf .stuckUnresolved).resumeIf .insufficientFunds).account .mined a).setWorker p
      (Engine.next todo)).checks j = e.checks j + if a.executes j then 1 else 0 :=
    fun j => checks_submit ⟨a,inc,0⟩ j
  have hother : ∀ j q, (Function.update e.workers p (Engine.next todo) q).settles j = true →
      q ≠ p ∧ (e.workers q).settles j = true := by
    intro j q hq
    have hne : q ≠ p := by
      rintro rfl
      rw [Function.update_self,Engine.next_settles] at hq
      cases hq
    rw [Function.update_of_ne hne] at hq
    exact ⟨hne,hq⟩
  have hown : ∀ j, a.executes j = true → (e.workers p).settles j = true := by
    intro j ha
    rw [hw]
    exact ha
  refine ⟨?_,?_,?_,?_,h.head⟩
  · intro j
    rw [hacc,happ]
    show _ ≤ _ + e.toApply j
    cases ha : a.executes j with
    | false => simpa [ha] using h.mined j
    | true =>
      obtain ⟨hm,-⟩ := h.settling j p (hown j ha)
      simp only [Note.accounts,Note.includes,ha,List.countP_singleton,decide_true,Bool.and_true,
        if_true,Bool.false_eq_true,if_false]
      omega
  · intro j
    rw [hacc,hdem]
    simpa using h.demoted j
  · intro j
    rw [hacc,hchecks]
    cases ha : a.executes j with
    | false => simpa [ha] using h.checked j
    | true =>
      obtain ⟨-,hzero,-⟩ := h.settling j p (hown j ha)
      simp only [Note.accounts,List.countP_singleton,reduceCtorEq,decide_false,Bool.false_and,
        Bool.false_eq_true,if_false,if_true]
      omega
  · intro j q hq
    obtain ⟨hne,hold⟩ := hother j q hq
    obtain ⟨h1,h2,h3⟩ := h.settling j q hold
    cases ha : a.executes j with
    | true => exact absurd (h3 p (hown j ha)).symm hne
    | false =>
      rw [hacc,hacc,happ,hchecks]
      simp only [Note.accounts,Note.includes,ha,List.countP_singleton,Bool.and_false,
        Bool.false_eq_true,if_false,Nat.zero_add,Nat.add_zero]
      exact ⟨h1,h2,fun x hx => h3 x (hother j x hx).2⟩

/-- Recovery starts a check where there was none. -/
theorem Accounts.resubmitted (h : Accounts e) (hheld : Held c e) {a : Attempt}
    (hfree : e.Unclaimed a) {p : Address} {inc : Inclusion} {todo : List (List Attempt)} :
    Accounts ((e.submit ⟨a,inc,0⟩).setWorker p (.recovering todo)) := by
  have hchecks : ∀ j, ((e.submit ⟨a,inc,0⟩).setWorker p (.recovering todo)).checks j =
      e.checks j + if a.executes j then 1 else 0 := fun j => checks_submit ⟨a,inc,0⟩ j
  have hold : ∀ j q, (Function.update e.workers p (.recovering todo) q).settles j = true →
      (e.workers q).settles j = true := settles_update fun _ => rfl
  refine ⟨h.mined,h.demoted,?_,?_,h.head⟩
  · intro j
    rw [hchecks]
    show e.accounted .confirmed j + _ ≤ 1
    cases ha : a.executes j with
    | false => simpa using h.checked j
    | true =>
      obtain ⟨hzero,-⟩ := hfree.of_executes hheld ha
      simp only [if_true]
      omega
  · intro j q hq
    obtain ⟨h1,h2,h3⟩ := h.settling j q (hold j q hq)
    rw [hchecks]
    cases ha : a.executes j with
    | false =>
      simp only [Bool.false_eq_true,if_false,Nat.add_zero]
      exact ⟨h1,h2,fun x hx => h3 x (hold j x hx)⟩
    | true =>
      obtain ⟨-,hnone⟩ := hfree.of_executes hheld ha
      have hq' := hold j q hq
      rw [hnone] at hq'
      cases hq'

/-! ## One lemma for each step -/

/-- An operation queued last takes nothing from those to apply. -/
theorem Accounts.pushes (h : Accounts e) {op : SettleOp} (hw : e'.written = e.written)
    (hq : e'.queue = e.queue ++ [op]) (j : JobId) : e.toApply j ≤ e'.toApply j := by
  rw [toApply_push h hw hq]
  exact Nat.le_add_right _ _

theorem Engine.push_ne_nil (e : Engine) (op : SettleOp) : e.written = true → e.queue ++ [op] ≠ [] :=
  fun _ => List.append_ne_nil_of_right_ne_nil _ (List.cons_ne_nil op [])

theorem Accounts.flushed (h : Accounts e) {w : Waiter} {rest : List SettleOp}
    (hq : e.queue = .flush w :: rest) :
    Accounts ({ e with queue := rest, written := false }.signal w) := by
  have hrest : ∀ j, e.toApply j ≤ rest.countP (SettleOp.includes j) := by
    intro j
    rw [toApply_pop hq]
    simp [SettleOp.includes]
  have hnot : false = true → rest ≠ [] := fun hx => by cases hx
  cases w with
  | verifier =>
    refine h.quiet rfl hrest ?_ (fun _ _ hx => hx) hnot
    intro j
    unfold Engine.checks
    rw [Engine.signal_items]
  | recovery p =>
    simp only [Engine.signal]
    split
    · exact h.quiet rfl hrest (fun _ => le_rfl) (settles_update fun _ => rfl) hnot
    · exact h.quiet rfl hrest (fun _ => le_rfl) (fun _ _ hx => hx) hnot

theorem Accounts.wrote (h : Accounts e) {op : SettleOp} {rest queue : List SettleOp} {call : Call}
    {parks written : Bool} {st : Settled} {s : Store} (hq : e.queue = op :: rest)
    (hc : call.reaches = true) (hr : op.run e.store = .ok (st,s))
    (hp : Engine.Popped e rest queue written)
    (hcond : Engine.Event.Matched chain e (.write call parks)) :
    Accounts { e with
      store := s
      queue := queue
      written := written
      log := op.notes s st ++ e.log } := by
  obtain ⟨hacc,happ,hdem⟩ := tallies_append (show ({ e with
    store := s, queue := queue, written := written, log := op.notes s st ++ e.log } : Engine).log =
    op.notes s st ++ e.log from rfl) (notes_counts op s st 0).1
  have hrest : ∀ j, (unwritten written queue).countP (SettleOp.includes j) =
      rest.countP (SettleOp.includes j) := by
    intro j
    cases hp with
    | stays =>
      rw [hq]
      rfl
    | gone => rfl
  refine h.of ?_ ?_ ?_ ?_ (fun _ _ hx => hx) ?_
  · intro j
    rw [hacc,(notes_counts op s st j).2.1]
    exact (Nat.zero_add _).le
  · intro j
    rw [happ,(notes_counts op s st j).2.2.2,toApply_pop hq]
    show _ ≤ _ + (unwritten written queue).countP (SettleOp.includes j)
    rw [hrest]
    by_cases hx : e.written = false ∧ op.includes j = true
    · -- the write applies
      obtain ⟨-,hrun⟩ := (hcond hx.1 op (by rw [hq]; rfl)).of_includes hx.2
      have hst := hrun hc
      rw [hr] at hst
      rw [if_pos hx,if_pos ⟨Except.ok.inj hst,hx.2⟩]
      omega
    · rw [if_neg hx]
      omega
  · intro j
    rw [hacc,hdem,(notes_counts op s st j).2.1,(notes_counts op s st j).2.2.1]
    omega
  · intro j
    rw [hacc,(notes_counts op s st j).2.1,Nat.zero_add]
    exact le_rfl
  · cases hp with
    | stays =>
      intro _
      show e.queue ≠ []
      rw [hq]
      exact List.cons_ne_nil _ _
    | gone =>
      intro hx
      cases hx

theorem Accounts.parked (h : Accounts e) {op : SettleOp} {rest : List SettleOp} {call : Call}
    {parks : Bool} (hq : e.queue = op :: rest)
    (he : call.permanent = true ∨ call.reaches = true ∧ ∃ err, op.run e.store = .error err)
    (hcond : Engine.Event.Matched chain e (.write call parks)) :
    Accounts { e with
      queue := rest
      written := false
      deadLetters := if parks then op :: e.deadLetters else e.deadLetters } := by
  refine h.quiet rfl ?_ (fun _ => le_rfl) (fun _ _ hx => hx) fun hx => by cases hx
  intro j
  rw [toApply_pop hq]
  show _ ≤ rest.countP (SettleOp.includes j)
  rw [if_neg,Nat.add_zero]
  rintro ⟨hw,hop⟩
  obtain ⟨hperm,hrun⟩ := (hcond hw op (by rw [hq]; rfl)).of_includes hop
  rcases he with he | ⟨hc,err,he⟩
  · rw [hperm] at he
    cases he
  · have hx := hrun hc
    rw [he] at hx
    cases hx

theorem Accounts.confirmed (h : Accounts e) {k : Nat} {item : PendingConfirmation}
    {found : BlockRef} (hm : e.missing = none) (hi : e.pending[k]? = some item) :
    Accounts (({ e with pending := e.pending.eraseIdx k }.push
      (.confirmation item.attempt found)).account .confirmed item.attempt) := by
  obtain ⟨hacc,happ,hdem⟩ := tallies_append (show (({ e with
    pending := e.pending.eraseIdx k }.push (.confirmation item.attempt found)).account .confirmed
    item.attempt).log = [.accounted .confirmed item.attempt] ++ e.log from rfl) (by simp)
  refine h.of ?_ ?_ ?_ ?_ (fun _ _ hx => hx) (e.push_ne_nil _)
  · intro j
    rw [hacc]
    simp
  · intro j
    rw [happ]
    simp only [Note.includes,List.countP_singleton,Bool.false_eq_true,if_false,Nat.zero_add]
    have hq : (({ e with pending := e.pending.eraseIdx k }.push
        (.confirmation item.attempt found)).account .confirmed item.attempt).queue =
        e.queue ++ [.confirmation item.attempt found] := rfl
    refine Nat.add_le_add_left (h.pushes ?_ hq j) _
    rfl
  · intro j
    rw [hacc,hdem]
    simp
  · intro j
    -- the check becomes a confirmation
    rw [hacc]
    unfold Engine.checks Engine.items
    simp only [Engine.account_pending,Engine.push_pending,Engine.account_missing,
      Engine.push_missing,List.countP_append,hm]
    rw [countP_eraseIdx (fun i => i.attempt.executes j) hi]
    cases hx : item.attempt.executes j with
    | false => simp [hx]
    | true =>
      simp [hx]
      omega

theorem Accounts.kept (h : Accounts e) {i : Nat} {item : PendingConfirmation} (misses : Nat)
    (hi : e.pending[i]? = some item) :
    Accounts ({ e with pending := e.pending.eraseIdx i }.submit { item with misses := misses }) :=
      by
  refine h.quiet rfl (fun _ => le_rfl) ?_ (fun _ _ hx => hx) h.head
  intro j
  unfold Engine.checks Engine.items
  simp only [Engine.submit_pending,Engine.submit_missing,List.countP_append,
    List.countP_singleton]
  rw [countP_eraseIdx (fun i => i.attempt.executes j) hi]

theorem Accounts.asked (h : Accounts e) {k : Nat} {item : PendingConfirmation} (misses : Nat)
    (hm : e.missing = none) (hi : e.pending[k]? = some item) :
    Accounts { e with
      pending := e.pending.eraseIdx k
      missing := some (.asking { item with misses := misses }) } := by
  refine h.quiet rfl (fun _ => le_rfl) ?_ (fun _ _ hx => hx) h.head
  intro j
  unfold Engine.checks Engine.items
  simp only [List.countP_append,hm,Option.toList,List.map,List.countP_singleton,List.countP_nil]
  rw [countP_eraseIdx (fun i => i.attempt.executes j) hi]
  cases hx : item.attempt.executes j <;> simp [OnMissing.item,hx]

theorem Accounts.stayed (h : Accounts e) {item : PendingConfirmation} (misses : Nat)
    (hm : e.missing = some (.asking item)) :
    Accounts ({ e with missing := none }.submit { item with misses := misses }) := by
  refine h.quiet rfl (fun _ => le_rfl) ?_ (fun _ _ hx => hx) h.head
  intro j
  unfold Engine.checks Engine.items
  simp only [Engine.submit_pending,Engine.submit_missing,List.countP_append,hm,Option.toList,
    List.map,List.countP_singleton,List.countP_nil,OnMissing.item]
  omega

theorem Accounts.updated (h : Accounts e) {item : PendingConfirmation} {s : Store}
    (hm : e.missing = some (.moved item true)) :
    Accounts ({ e with store := s, missing := none }.submit item) := by
  refine h.quiet rfl (fun _ => le_rfl) ?_ (fun _ _ hx => hx) h.head
  intro j
  unfold Engine.checks Engine.items
  simp only [Engine.submit_pending,Engine.submit_missing,List.countP_append,hm,Option.toList,
    List.map,List.countP_singleton,List.countP_nil,OnMissing.item]
  omega

theorem Accounts.undone (h : Accounts e) {item : PendingConfirmation} :
    Accounts ({ e with
      store := (demoteInclusion e.store item.attempt).2
      missing := none
      log := e.undoing item ++ e.log }.setPair item.attempt.signer
      fun p => (p.pauseFor .reorg .reconcilingNonce).requestRecovery) := by
  obtain ⟨hacc,happ,hdem⟩ := tallies_append (show ({ e with
    store := (demoteInclusion e.store item.attempt).2
    missing := none
    log := e.undoing item ++ e.log }.setPair item.attempt.signer
    fun p => (p.pauseFor .reorg .reconcilingNonce).requestRecovery).log =
    e.undoing item ++ e.log from rfl) (undoing_counts e item 0).1
  refine h.of ?_ ?_ ?_ ?_ (fun _ _ hx => hx) h.head
  · intro j
    rw [hacc,(undoing_counts e item j).2.1]
    exact (Nat.zero_add _).le
  · intro j
    rw [happ,(undoing_counts e item j).2.2.2.1,Nat.zero_add]
    exact le_rfl
  · intro j
    rw [hacc,hdem,(undoing_counts e item j).2.2.2.2]
    omega
  · intro j
    rw [hacc,(undoing_counts e item j).2.2.1]
    unfold Engine.checks Engine.items
    simp only [Engine.setPair_pending,Engine.setPair_missing,List.countP_append,Option.toList,
      List.map,List.countP_nil]
    omega

theorem Accounts.notUndone (h : Accounts e) {item : PendingConfirmation} {call : Call} {s : Store}
    (hm : e.missing = some (.vanished item true)) :
    Accounts ({ e with
      store := s
      missing := none
      log := e.noted call item.attempt item.block ++ e.log }.submit item) := by
  obtain ⟨hacc,happ,hdem⟩ := tallies_append (show ({ e with
    store := s
    missing := none
    log := e.noted call item.attempt item.block ++ e.log }.submit item).log =
    e.noted call item.attempt item.block ++ e.log from rfl)
    (noted_counts e call item.attempt item.block 0).1
  have hcounts := noted_counts e call item.attempt item.block
  refine h.of ?_ ?_ ?_ ?_ (fun _ _ hx => hx) h.head
  · intro j
    rw [hacc,(hcounts j).2.1]
    exact (Nat.zero_add _).le
  · intro j
    rw [happ,(hcounts j).2.2,Nat.zero_add]
    exact le_rfl
  · intro j
    rw [hacc,hdem,(hcounts j).2.1]
    omega
  · intro j
    rw [hacc,(hcounts j).2.1]
    unfold Engine.checks Engine.items
    simp only [Engine.submit_pending,Engine.submit_missing,List.countP_append,hm,Option.toList,
      List.map,List.countP_singleton,List.countP_nil,OnMissing.item]
    omega

theorem Accounts.undid (h : Accounts e) {p : Address} {call : Call} {a : Attempt}
    {group : List Attempt} {todo : List (List Attempt)} (hw : e.workers p = .demoting a group todo)
    (hc : call = .answered) (hcond : Engine.Event.Matched chain e (.undo p call)) :
    Accounts ((({ e with
      store := (demoteInclusion e.store a).2
      log := e.store.demotion a a.block ++ e.log }.account .demoted a).setPair p
      Engine.pauseResending).setWorker p (Engine.resending group todo)) := by
  have happlied : a.purpose = .job → (demoteInclusion e.store a).1 = .applied := by
    intro hp
    refine demote_applied (hcond hc a ?_ hp)
    rw [hw]
    exact rfl
  obtain ⟨hacc,happ,hdem⟩ := tallies_append (show (((({ e with
    store := (demoteInclusion e.store a).2
    log := e.store.demotion a a.block ++ e.log }.account .demoted a).setPair p
    Engine.pauseResending).setWorker p (Engine.resending group todo))).log =
    (.accounted .demoted a :: e.store.demotion a a.block) ++ e.log from rfl)
    (by simp [(demotion_counts e.store a a.block 0).1])
  have hcounts := demotion_counts e.store a a.block
  refine h.of ?_ ?_ ?_ ?_ (settles_update (Engine.resending_settles _ _)) h.head
  · intro j
    rw [hacc,List.countP_cons,(hcounts j).2.1]
    simp
  · intro j
    rw [happ,List.countP_cons,(hcounts j).2.2.1]
    simp only [Note.includes,Bool.false_eq_true,if_false,Nat.zero_add]
    exact le_rfl
  · intro j
    rw [hacc,hdem,List.countP_cons,List.countP_cons,(hcounts j).2.1,(hcounts j).2.2.2]
    cases hx : a.executes j with
    | false =>
      simp only [Note.accounts,Note.demotes,hx,Bool.and_false,Bool.false_eq_true,if_false,and_false]
      omega
    | true =>
      have hp : a.purpose = .job := by
        simp only [Attempt.executes,Bool.and_eq_true,decide_eq_true_eq] at hx
        exact hx.2
      simp only [Note.accounts,Note.demotes,hx,happlied hp,Bool.and_true,decide_true,if_true,
        and_true,Bool.false_eq_true,if_false]
      omega
  · intro j
    rw [hacc,List.countP_cons,(hcounts j).2.1]
    simp only [Note.accounts,reduceCtorEq,decide_false,Bool.false_and,Bool.false_eq_true,
      if_false,Nat.zero_add]
    exact le_rfl

theorem Accounts.notDemoted (h : Accounts e) {p : Address} {call : Call} {a : Attempt} {s : Store} :
    Accounts ({ e with
      store := s
      log := e.noted call a a.block ++ e.log }.retryRecovery p) := by
  obtain ⟨hacc,happ,hdem⟩ := tallies_append (show ({ e with
    store := s
    log := e.noted call a a.block ++ e.log }.retryRecovery p).log =
    e.noted call a a.block ++ e.log from rfl) (noted_counts e call a a.block 0).1
  have hcounts := noted_counts e call a a.block
  refine h.of ?_ ?_ ?_ ?_ (settles_update fun _ => rfl) h.head
  · intro j
    rw [hacc,(hcounts j).2.1]
    exact (Nat.zero_add _).le
  · intro j
    rw [happ,(hcounts j).2.2,Nat.zero_add]
    exact le_rfl
  · intro j
    rw [hacc,hdem,(hcounts j).2.1]
    omega
  · intro j
    rw [hacc,(hcounts j).2.1,Nat.zero_add]
    exact le_rfl

theorem Accounts.step (h : Accounts e) (hheld : Held c e) (hs : Engine.Step chain c e ev e')
    (hd : chain.confirmCheck ≠ .immediate) (hcond : ev.Matched chain e) : Accounts e' := by
  cases hs with
  | skip => exact h
  | op hi he => exact h.quiet rfl (fun _ => le_rfl) (fun _ => le_rfl) (fun _ _ hx => hx) h.head
  | signalled hq => exact h.flushed hq
  | wrote _ hq hc hr hp => exact h.wrote hq hc hr hp hcond
  | parked _ hq he => exact h.parked hq he hcond
  | confirmed hm hi => exact h.confirmed hm hi
  | kept misses _ hi => exact h.kept misses hi
  | asked misses hm hi => exact h.asked misses hm hi
  | stayed misses hm => exact h.stayed misses hm
  | vanished hm | moved hm =>
    refine h.quiet rfl (h.pushes rfl rfl) ?_ (fun _ _ hx => hx) (e.push_ne_nil _)
    intro j
    unfold Engine.checks Engine.items
    simp only [Engine.push_pending,Engine.push_missing,List.countP_append,hm,Option.toList,
      List.map,List.countP_singleton,OnMissing.item]
    exact le_rfl
  | updated hm => exact h.updated hm
  | undone => exact h.undone
  | notUndone hm => exact h.notUndone hm
  | settled hw ha hi =>
    next p r a inc attempts todo =>
    have hfree : e.Unclaimed a := hcond _ (Engine.placed_receipt hw ha hi)
    exact h.settled hheld hfree
  | handedOver hw =>
    rw [if_neg hd]
    exact h.handedOver hw
  | recovering hw hr =>
    exact h.quiet rfl (h.pushes rfl rfl) (fun _ => le_rfl) (settles_update fun _ => rfl)
      (e.push_ne_nil _)
  | rebroadcast hw hn =>
    exact h.quiet rfl (fun _ => le_rfl) (fun _ => le_rfl)
      (settles_update (Engine.resending_settles _ _)) h.head
  | voided hw =>
    exact h.quiet rfl (fun _ => le_rfl) (fun _ => le_rfl)
      (settles_update (Engine.next_settles _)) h.head
  | resubmitted hw ha hi hc =>
    next p r a inc group todo =>
    have hfree : e.Unclaimed a := hcond _ (Engine.placed_look hw ha hi hc)
    exact h.resubmitted hheld hfree
  | confirmedAtOnce hw ha hi hc => exact absurd hc hd
  | demoted hw hc => exact h.undid hw hc hcond
  | notDemoted => exact h.notDemoted
  | flags hf => exact h.quiet rfl (fun _ => le_rfl) (fun _ => le_rfl) (fun _ _ hx => hx) h.head
  | restarted manual =>
    refine ⟨?_,?_,?_,?_,fun hx => by cases hx⟩
    · intro j
      exact (tally_restarted.le).trans (Nat.zero_le _)
    · intro j
      exact (tally_restarted.le).trans (Nat.zero_le _)
    · intro j
      exact Nat.add_le_add tally_restarted.le (Nat.zero_le 1)
    · intro j p hp
      cases hp
  | picked hw | boundFirst hw | boundMore hw | dropped hw | stuck hw | needsRecovery hw | loaded hw
  | lookFailed hw | gone hw | finished hw | unfinished hw =>
    exact h.quiet rfl (fun _ => le_rfl) (fun _ => le_rfl) (settles_update fun _ => rfl) h.head

end Steps

/-- As long as at most one check of a job is under way, recovery only demotes what is still
included, and counted inclusions are written, no counter of a job moves more often than the
store. -/
theorem inclusions_counted_once {chain : ChainCtx} {c : ChainId} {e : Engine}
    (hd : chain.confirmCheck ≠ .immediate)
    (h : ((confirmation chain c).restrict fun e ev => ev.Matched chain e).Reaches Engine.init e)
    (j : JobId) : e.CountedOnce j := by
  have hall : Held c e ∧ Accounts e := by
    refine h.invariant (I := fun e => Held c e ∧ Accounts e) ⟨.init,?_⟩ ?_
    · refine ⟨fun _ => le_rfl,fun _ => le_rfl,fun _ => Nat.zero_le 1,?_,fun hx => by cases hx⟩
      intro j p hp
      cases hp
    · rintro e ev ⟨hh,ha⟩ ⟨hp,hcond⟩
      have hs : Engine.Step chain c e ev (e.step chain c ev) := .of_possible hp
      exact ⟨hh.step hs,ha.step hh hs hd hcond⟩
  obtain ⟨-,ha⟩ := hall
  refine ⟨?_,ha.demoted j,?_⟩
  · exact (ha.mined j).trans (Nat.add_le_add_left (unwritten_countP _) _)
  · exact (Nat.le_add_right _ _).trans (ha.checked j)

instance : DecidableEq (Except StoreError Settled)
  | .ok a,.ok b => decidable_of_iff (a = b) ⟨congrArg _,Except.ok.inj⟩
  | .error a,.error b => decidable_of_iff (a = b) ⟨congrArg _,Except.error.inj⟩
  | .ok _,.error _ => .isFalse fun h => by cases h
  | .error _,.ok _ => .isFalse fun h => by cases h

instance (e : Engine) (a : Attempt) : Decidable (e.Unclaimed a) :=
  inferInstanceAs (Decidable (a.purpose = .job → ∀ j, a.owner = .job j →
    e.accounted .confirmed j + e.checks j = 0 ∧
      ∀ r ∈ e.store.txAttempts.rows, (e.workers r.signer).settles j = false))

instance (e : Engine) (call : Call) : DecidablePred (e.Applies call)
  | .inclusion a inc now => inferInstanceAs (Decidable (a.purpose = .job → call.permanent = false ∧
      (call.reaches = true → ((SettleOp.inclusion a inc now).run e.store).map Prod.fst = .ok .applied)))
  | .confirmation _ _ | .flush _ => .isTrue trivial

instance (chain : ChainCtx) (e : Engine) : DecidablePred (Engine.Event.Matched chain e)
  | .receipt p r => inferInstanceAs (Decidable
      (∀ x ∈ e.placed chain (.receipt p r), e.Unclaimed x.1))
  | .look p answer => inferInstanceAs (Decidable
      (∀ x ∈ e.placed chain (.look p answer), e.Unclaimed x.1))
  | .undo p call => inferInstanceAs (Decidable (call = .answered →
      ∀ a ∈ (e.workers p).undoing, a.purpose = .job →
        ∃ r ∈ e.store.txAttempts.rows, r.id = a.id ∧ r.status = .included))
  | .write call _ => inferInstanceAs (Decidable
      (e.written = false → ∀ op ∈ e.queue.head?, e.Applies call op))
  | .check _ _ | .resolve _ | .op _ | .lookup _ | .pick _ | .bound _ _ _ _ | .handOver _
  | .leave _ _ | .recover _ | .load _ | .finish _ _ _ | .pause _ _ | .resumeIf _ _
  | .requestRecovery _ | .operatorResume _ | .restart _ => .isTrue trivial

namespace Sample

def inBlock : View := ⟨fun n => some ⟨n,100,[3]⟩,none⟩

/-- The transaction vanishes, is undone and mined again, and confirmed there. -/
def minedTwice : List Engine.Event :=
  undone ++ [.recover 9,.write .answered true,.load 9,.look 9 none,.receipt 9 (receipt 3 11 100),
    .handOver 9,.write .answered true,.check 0 inBlock,.write .answered true]

/-- Recovery hands the check of an inclusion over while one is pending. -/
def checkedTwice : List Engine.Event :=
  included ++ [.requestRecovery 9,.recover 9,.write .answered true,.load 9,
    .look 9 (some (some (receipt 3 10 100))),.check 0 inBlock,.check 0 inBlock]

end Sample

theorem inclusions_counted_once_again :
    Sample.ethereum.confirmCheck ≠ .immediate ∧
      ∃ e, ((confirmation Sample.ethereum 1).restrict
          fun e ev => ev.Matched Sample.ethereum e).Reaches Engine.init e ∧
        (e.accounted .mined 1 = 2 ∧ e.accounted .demoted 1 = 1 ∧ e.accounted .confirmed 1 = 1) ∧
        e.CountedOnce 1 := by
  have hd : Sample.ethereum.confirmCheck ≠ .immediate := by decide
  have hrun : ((confirmation Sample.ethereum 1).restrict
      fun e ev => ev.Matched Sample.ethereum e).Runs Engine.init Sample.minedTwice := by
    decide +kernel
  exact ⟨hd,_,hrun.reaches,by decide +kernel,inclusions_counted_once hd hrun.reaches 1⟩

/-- Both checks find the transaction, and the job is counted as confirmed twice. -/
theorem confirmed_counted_twice :
    Sample.ethereum.confirmCheck ≠ .immediate ∧
      ∃ e, (confirmation Sample.ethereum 1).Reaches Engine.init e ∧ ¬ ∀ j, e.CountedOnce j := by
  have hrun : (confirmation Sample.ethereum 1).Runs Engine.init Sample.checkedTwice := by
    decide +kernel
  refine ⟨by decide,_,hrun.reaches,?_⟩
  intro hall
  have htwo : (Sample.checkedTwice.foldl (confirmation Sample.ethereum 1).step
      Engine.init).accounted .confirmed 1 = 2 := by decide +kernel
  have hone := (hall 1).confirmed
  omega

end GumEngine
