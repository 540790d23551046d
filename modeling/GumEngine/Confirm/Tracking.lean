import GumEngine.Confirm.Places
import GumEngine.Confirm.Order

/-!
# No inclusion is forgotten

An inclusion that is stored, or queued to be stored, is followed by somebody: an item of the
verifier, the worker that settles it, a confirmation behind it in the queue, or the recovery
of its pair. Each task hands over before it lets go; the one hole is a confirmation that the
database refuses for good and that cannot be parked either.
-/

namespace GumEngine
open Relational Transition

/-- The worker is inside `recover_pair`. -/
def Worker.recovers : Worker → Bool
  | idle | picked | driving _ none | settling _ _ none => false
  | _ => true

namespace Engine

/-- What the verifier has in its channel, in its deque, or in hand. -/
def items (e : Engine) : List PendingConfirmation := e.pending ++ e.missing.toList.map OnMissing.item

/-- The attempt is with the verifier, or inside `settle`, or its confirmation was parked. -/
inductive Followed (e : Engine) (id : Uuid) : Prop
  | item {i : PendingConfirmation} (h : i ∈ e.items) (hid : i.attempt.id = id)
  | settling {p : Address} {a : Attempt} {inc : Inclusion} {todo : Option (List (List Attempt))}
      (h : e.workers p = .settling a inc todo) (hid : a.id = id)
  | parked {a : Attempt} {found : BlockRef} (h : .confirmation a found ∈ e.deadLetters)
      (hid : a.id = id)

/-- A confirmation of the attempt is queued. -/
def Confirming (q : List SettleOp) (id : Uuid) : Prop :=
  ∃ a found, .confirmation a found ∈ q ∧ a.id = id

def NeedsOperator (pair : Pair) : Prop := ∃ why, pair.pause = some ⟨why,.needsOperator⟩

/-- Somebody will come back to the inclusion of this row. -/
def Tracked (e : Engine) (r : AttemptRow) : Prop :=
  e.Followed r.id ∨ Confirming e.queue r.id ∨ (e.pairs r.signer).recoveryRequested = true ∨
    (e.workers r.signer).recovers = true ∨ NeedsOperator (e.pairs r.signer)

/-! ## The invariant -/

/-- The worker has stopped for an operator; the reason is one that no one lifts without
asking for recovery. -/
def Stopped (e : Engine) (p : Address) : Prop :=
  e.workers p = .idle ∧ ((e.pairs p).pause = some ⟨.nonceDrift,.needsOperator⟩ ∨
    (e.pairs p).pause = some ⟨.reorg,.needsOperator⟩)

/-- Recovery will load whatever of the pair is written by then. -/
def Awaited (e : Engine) (p : Address) : Prop :=
  (e.pairs p).recoveryRequested = true ∨ e.workers p = .flushing ∨ e.Stopped p

/-- Recovery is about to load the row, or has it loaded as included. -/
def Listed (e : Engine) (p : Address) (id : Uuid) : Prop :=
  e.Awaited p ∨ e.workers p = .loading ∨ ∃ x ∈ (e.workers p).places true, x.1 = id

def Minds (e : Engine) (p : Address) (id : Uuid) : Prop :=
  e.Followed id ∨ Confirming e.queue id ∨ e.Listed p id

end Engine

/-- Every queued inclusion is followed, or a confirmation comes behind it. -/
def Backed (ok : Attempt → Prop) : List SettleOp → Prop
  | [] => True
  | .inclusion a _ _ :: q => (ok a ∨ Engine.Confirming q a.id) ∧ Backed ok q
  | _ :: q => Backed ok q

/-- The attempts that are loaded and not yet handled. -/
def Worker.todo : Worker → List (List Attempt)
  | driving _ todo | settling _ _ todo => todo.getD []
  | recovering todo | demoting _ _ todo => todo
  | _ => []

/-- Outside `settle` and outside a flush. -/
def Worker.steady : Worker → Bool
  | settling _ _ _ | flushing => false
  | _ => true

/-- At most one attempt of a nonce is loaded as included. -/
def Single (todo : List (List Attempt)) : Prop :=
  ∀ g ∈ todo, ∀ a ∈ g, ∀ b ∈ g, a.status = .included → b.status = .included → a.id = b.id

structure Tracks (c : ChainId) (e : Engine) : Prop where
  rows : ∀ r ∈ e.store.txAttempts.rows, r.chainId = c → r.status = .included →
    e.Minds r.signer r.id
  queued : Backed (fun a => e.Followed a.id ∨ e.Awaited a.signer) e.queue
  fenced : ∀ p, Barred (.recovery p) e.queue
  quiet : ∀ p, e.workers p ≠ .flushing → .flush (.recovery p) ∉ e.queue
  single : ∀ p, Single (e.workers p).todo

section Queue

variable {ok ok' : Attempt → Prop} {q : List SettleOp} {op : SettleOp}

theorem Backed.tail (h : Backed ok (op :: q)) : Backed ok q := by
  cases op with
  | inclusion a inc now => exact h.2
  | confirmation a found => exact h
  | flush w => exact h

/-- Whatever followed a queued inclusion still does, or its confirmation is queued. -/
theorem Backed.append {l : List SettleOp} (h : Backed ok q)
    (hok : ∀ a inc now, .inclusion a inc now ∈ q → ok a → ok' a ∨ Engine.Confirming l a.id)
    (hl : Backed ok' l) : Backed ok' (q ++ l) := by
  induction q with
  | nil => exact hl
  | cons op q ih =>
    have hq := ih h.tail fun a inc now hm => hok a inc now (List.mem_cons_of_mem _ hm)
    cases op with
    | inclusion a inc now =>
      refine ⟨?_,hq⟩
      rcases h.1 with ha | ⟨b,found,hm,hid⟩
      · refine (hok a inc now List.mem_cons_self ha).imp_right ?_
        rintro ⟨b,found,hm,hid⟩
        exact ⟨b,found,List.mem_append_right _ hm,hid⟩
      · exact .inr ⟨b,found,List.mem_append_left _ hm,hid⟩
    | confirmation a found => exact hq
    | flush w => exact hq

theorem Backed.of_none {l : List SettleOp} (h : ∀ a inc now, .inclusion a inc now ∉ l) :
    Backed ok l := by
  induction l with
  | nil => trivial
  | cons op l ih =>
    have hl := ih fun a inc now hm => h a inc now (List.mem_cons_of_mem _ hm)
    cases op with
    | inclusion a inc now => exact absurd List.mem_cons_self (h a inc now)
    | confirmation a found => exact hl
    | flush w => exact hl

theorem Backed.mono (h : Backed ok q)
    (hok : ∀ a inc now, .inclusion a inc now ∈ q → ok a → ok' a) : Backed ok' q := by
  have happ : Backed ok' (q ++ []) :=
    h.append (fun a inc now hm ha => .inl (hok a inc now hm ha)) trivial
  rwa [List.append_nil] at happ

end Queue

theorem Single.tail {g : List Attempt} {todo : List (List Attempt)} (h : Single (g :: todo)) :
    Single todo :=
  fun x hx => h x (List.mem_cons_of_mem _ hx)

theorem Single.nil : Single [] := by
  intro g hg
  cases hg

/-! ## Rows that are not included afterwards, and rows that are loaded -/

section Rows

variable {c : ChainId} {s : Store} {p : Address} {live : List Attempt}

theorem confirmed_gone (s : Store) (a : Attempt) : ∀ r ∈ (confirmInTx s a).2.txAttempts.rows,
    r.id = a.id → r.status ≠ .included := by
  intro r hr hid hin
  rcases confirmInTx_spec s a with h | ⟨-,h⟩
  · have hany : s.txAttempts.rows.any (AttemptRow.whereIn a.id [.included]) = true := by
      refine List.any_eq_true.mpr ⟨r,?_,?_⟩
      · rwa [h] at hr
      · simp [AttemptRow.whereIn,hid,hin]
    unfold confirmInTx at h
    simp [hany] at h
  · rw [h.attempts] at hr
    obtain ⟨q,-,rfl⟩ := List.mem_map.mp hr
    rw [(confirmRow_same a q).id] at hid
    rw [confirmRow_status] at hin
    split at hin
    · cases hin
    · next hno => exact hno ⟨hid,hin⟩

theorem demoted_gone (s : Store) (a : Attempt) : ∀ r ∈ (demoteInclusion s a).2.txAttempts.rows,
    r.id = a.id → r.status ≠ .included := by
  intro r hr hid hin
  rcases demoteInclusion_spec s a with h | ⟨-,h⟩
  · rw [h] at hr
    unfold demoteInclusion at h
    split at h
    · next hnone =>
      refine Table.updateReturning_eq_none.mp hnone r hr ?_
      simp [AttemptRow.whereIn,hid,hin]
    · cases congrArg Prod.fst h
  · rw [h.attempts] at hr
    obtain ⟨q,-,rfl⟩ := List.mem_map.mp hr
    rw [(demoteRow_same a q).id] at hid
    rw [demoteRow_status] at hin
    split at hin
    · cases hin
    · next hno => exact hno ⟨hid,hin⟩

theorem mem_byNonce {a : Attempt} (h : a ∈ live) : ∃ g ∈ byNonce live, a ∈ g := by
  refine ⟨_,List.mem_map.mpr ⟨a.nonce,?_,rfl⟩,?_⟩
  · exact List.mem_dedup.mpr (List.mem_map_of_mem h)
  · simp [h]

/-- Recovery loads every included row of its pair. -/
theorem included_loaded (hl : loadLiveAttemptsFor s c p = .ok live) {r : AttemptRow}
    (hr : r ∈ s.txAttempts.rows) (hc : r.chainId = c) (hp : r.signer = p)
    (hin : r.status = .included) : ∃ x ∈ loadedPlaces true (byNonce live), x.1 = r.id := by
  have hlive : r ∈ s.liveRows c p := mem_liveRows.mpr ⟨hr,hc,hp,.inr hin⟩
  obtain ⟨a,ha,hrow⟩ := (mem_mapM hl).1 r hlive
  obtain ⟨g,hg,hag⟩ := mem_byNonce ha
  refine ⟨(a.id,a.block),mem_loadedPlaces.mpr ⟨rfl,a,List.mem_flatten.mpr ⟨g,hg,hag⟩,?_,rfl⟩,?_⟩
  · rw [(attemptRow_mined hrow).1,hin]
  · exact (attemptRow_ok hrow).2.1

/-- Of each nonce at most one attempt is mined. -/
theorem single_loaded (hl : loadLiveAttemptsFor s c p = .ok live) : Single (byNonce live) := by
  intro g hg a ha b hb hain hbin
  obtain ⟨n,hn⟩ := byNonce_mem hg
  obtain ⟨ra,hra,hrowa⟩ := (mem_mapM hl).2 a (hn a ha).1
  obtain ⟨rb,hrb,hrowb⟩ := (mem_mapM hl).2 b (hn b hb).1
  obtain ⟨hma,hca,hpa,-⟩ := mem_liveRows.mp hra
  obtain ⟨hmb,hcb,hpb,-⟩ := mem_liveRows.mp hrb
  have hslot : ra.slot = rb.slot := by
    have hna : ra.nonce = n := (congrArg Slot.nonce (attemptRow_slot hrowa)).symm.trans (hn a ha).2
    have hnb : rb.nonce = n := (congrArg Slot.nonce (attemptRow_slot hrowb)).symm.trans (hn b hb).2
    simp only [AttemptRow.slot,hca,hcb,hpa,hpb,hna,hnb]
  have hsame : ra = rb := by
    refine mined_unique hma hmb (.inl ?_) (.inl ?_) hslot
    · rw [← (attemptRow_mined hrowa).1,hain]
    · rw [← (attemptRow_mined hrowb).1,hbin]
  rw [(attemptRow_ok hrowa).2.1,(attemptRow_ok hrowb).2.1,hsame]

end Rows

def SettleOp.isConfirmation : SettleOp → Bool
  | confirmation _ _ => true
  | _ => false

/-- A confirmation that the database refuses for good is parked. -/
def Engine.Event.Parks (e : Engine) : Event → Prop
  | .write call parks => ∀ op ∈ e.queue.head?, op.isConfirmation = true →
      call.permanent = true → parks = true
  | _ => True

section Steps

variable {chain : ChainCtx} {c : ChainId} {e e' : Engine} {ev : Engine.Event} {new : List Place}
  {p : Address} {id : Uuid}

theorem Engine.Followed.mono (h : e.Followed id)
    (hi : ∀ i ∈ e.items, i.attempt.id = id → e'.Followed id)
    (hw : ∀ p a inc todo, e.workers p = .settling a inc todo → e'.Followed a.id)
    (hd : ∀ op ∈ e.deadLetters, op ∈ e'.deadLetters) : e'.Followed id := by
  cases h with
  | item hm hid => exact hi _ hm hid
  | settling hs hid => exact hid ▸ hw _ _ _ _ hs
  | parked hm hid => exact .parked (hd _ hm) hid

/-- Every included row was included before, or is new. -/
theorem Tracks.rows_step (h : Tracks c e) (hr : RowStep c new e.store e'.store)
    (hnew : ∀ r ∈ e'.store.txAttempts.rows, (r.id,r.block) ∈ new → e'.Minds r.signer r.id)
    (hm : ∀ r ∈ e'.store.txAttempts.rows, r.chainId = c → r.status = .included →
      e.Minds r.signer r.id → e'.Minds r.signer r.id) :
    ∀ r ∈ e'.store.txAttempts.rows, r.chainId = c → r.status = .included →
      e'.Minds r.signer r.id := by
  intro r' hr' hc hin
  obtain ⟨r,hrm,hsame,⟨hst,-⟩ | hx⟩ := hr.keeps r' hr' hc hin
  · refine hm r' hr' hc hin ?_
    have hold := h.rows r hrm (hsame.chainId ▸ hc) hst
    rwa [hsame.id,hsame.signer]
  · exact hnew r' hr' hx

/-- The worker of `p` moves, and what it lets go of is followed. -/
theorem Tracks.move (h : Tracks c e) {w : Worker} {l : List SettleOp}
    (hr : RowStep c [] e.store e'.store) (hq : e'.queue = e.queue ++ l)
    (hi : ∀ i ∈ e.items, i ∈ e'.items) (hd : e'.deadLetters = e.deadLetters)
    (hw : e'.workers = Function.update e.workers p w)
    (hpairs : ∀ q, q ≠ p → e'.pairs q = e.pairs q)
    (hs : ∀ a inc todo, e.workers p = .settling a inc todo → e'.Followed a.id)
    (hf : e.workers p ≠ .flushing)
    (hreq : (e.pairs p).recoveryRequested = true → e'.Awaited p)
    (hstop : e.Stopped p → e'.Awaited p)
    (hlist : ∀ r ∈ e'.store.txAttempts.rows, r.chainId = c → r.status = .included →
      r.signer = p → (e.workers p = .loading ∨ ∃ x ∈ (e.workers p).places true, x.1 = r.id) →
      e'.Minds p r.id)
    (hsingle : Single w.todo) (hback : Backed (fun a => e'.Followed a.id ∨ e'.Awaited a.signer) l)
    (hfence : ∀ q, Barred (.recovery q) (e.queue ++ l))
    (hquiet : ∀ q, e'.workers q ≠ .flushing → .flush (.recovery q) ∉ l) : Tracks c e' := by
  have hself : e'.workers p = w := by rw [hw,Function.update_self]
  have hother : ∀ q, q ≠ p → e'.workers q = e.workers q := by
    intro q hne
    rw [hw,Function.update_of_ne hne]
  have hfollow : ∀ {id}, e.Followed id → e'.Followed id := by
    intro id hx
    refine hx.mono (fun i him hid => .item (hi i him) hid) ?_ (fun op hop => hd ▸ hop)
    intro q a inc todo hset
    by_cases hqp : q = p
    · subst hqp
      exact hs a inc todo hset
    · exact .settling ((hother q hqp).trans hset) rfl
  have hawait : ∀ q, e.Awaited q → e'.Awaited q := by
    intro q hx
    by_cases hqp : q = p
    · -- what the worker of `p` was asked to do, or what stopped it
      subst hqp
      rcases hx with hx | hx | hx
      · exact hreq hx
      · exact absurd hx hf
      · exact hstop hx
    · unfold Engine.Awaited Engine.Stopped
      rw [hpairs q hqp,hother q hqp]
      exact hx
  refine ⟨h.rows_step hr (by simp) ?_,?_,?_,?_,?_⟩
  · rintro r hrm hc hin (hx | ⟨a,found,hx,hid⟩ | hx)
    · exact .inl (hfollow hx)
    · exact .inr (.inl ⟨a,found,by rw [hq]; exact List.mem_append_left _ hx,hid⟩)
    · by_cases hqp : r.signer = p
      · rw [hqp] at hx ⊢
        rcases hx with hx | hx
        · exact .inr (.inr (.inl (hawait p hx)))
        · exact hlist r hrm hc hin hqp hx
      · -- the lists of the other workers are as they were
        refine .inr (.inr (hx.imp (hawait _) ?_))
        rw [hother _ hqp]
        exact fun h => h
  · rw [hq]
    exact h.queued.append (fun a inc now _ ha => .inl (ha.imp hfollow (hawait _))) hback
  · rw [hq]
    exact hfence
  · intro q hne hm
    rw [hq] at hm
    rcases List.mem_append.mp hm with hm | hm
    · by_cases hqp : q = p
      · subst hqp
        exact h.quiet q hf hm
      · exact h.quiet q (by rwa [hother q hqp] at hne) hm
    · exact hquiet q hne hm
  · intro q
    by_cases hqp : q = p
    · subst hqp
      rwa [hself]
    · rw [hother q hqp]
      exact h.single q

/-- A move of the worker outside `settle` that leaves the queue and the verifier alone. -/
theorem Tracks.worker (h : Tracks c e) {w₀ w : Worker} (h₀ : e.workers p = w₀)
    (hsteady : w₀.steady = true) (hr : RowStep c [] e.store e'.store)
    (hq : e'.queue = e.queue) (hi : e'.items = e.items) (hd : e'.deadLetters = e.deadLetters)
    (hw : e'.workers = Function.update e.workers p w)
    (hpairs : ∀ q, q ≠ p → e'.pairs q = e.pairs q)
    (hreq : (e.pairs p).recoveryRequested = true → (e'.pairs p).recoveryRequested = true)
    (hstop : w₀ = .idle → e.Stopped p → e'.Awaited p)
    (hlist : ∀ r ∈ e'.store.txAttempts.rows, r.chainId = c → r.status = .included →
      r.signer = p → (w₀ = .loading ∨ ∃ x ∈ w₀.places true, x.1 = r.id) → e'.Listed p r.id)
    (hsingle : Single w.todo) : Tracks c e' := by
  subst h₀
  refine h.move (l := []) hr (by rw [hq,List.append_nil]) ?_ hd hw hpairs ?_ ?_ ?_ ?_ ?_
    hsingle trivial ?_ ?_
  · intro i him
    rwa [hi]
  · intro a inc todo hx
    rw [hx] at hsteady
    cases hsteady
  · intro hx
    rw [hx] at hsteady
    cases hsteady
  · exact fun hx => .inl (hreq hx)
  · exact fun hx => hstop hx.1 hx
  · intro r hrm hc hin hp hx
    exact .inr (.inr (hlist r hrm hc hin hp hx))
  · intro q
    rw [List.append_nil]
    exact h.fenced q
  · intro q _ hm
    cases hm

/-- The workers stay where they are; the verifier may queue its writes. -/
theorem Tracks.still (h : Tracks c e) (hh : Held c e) {l : List SettleOp}
    (hr : RowStep c new e.store e'.store)
    (hnew : ∀ x ∈ new, e'.Followed x.1) (hw : e'.workers = e.workers)
    (hq : e'.queue = e.queue ++ l) (hl : ∀ op ∈ l, (∃ a found, op = .confirmation a found) ∨
      op = .flush .verifier)
    (hd : ∀ op ∈ e.deadLetters, op ∈ e'.deadLetters)
    (hreq : ∀ q, (e.pairs q).recoveryRequested = true → (e'.pairs q).recoveryRequested = true)
    (hstop : ∀ q, e.Stopped q → e'.Awaited q)
    (hi : ∀ i ∈ e.items, e'.Followed i.attempt.id ∨ Engine.Confirming l i.attempt.id ∨
      (e'.pairs i.attempt.signer).recoveryRequested = true) : Tracks c e' := by
  have hitem : ∀ {i : PendingConfirmation}, i ∈ e.items → i.attempt.KnownIn c e.store := by
    intro i him
    refine hh.shared _ (mem_shared.mpr ?_)
    rcases List.mem_append.mp him with him | him
    · exact .inr (.inl ⟨i,him,rfl⟩)
    · obtain ⟨m,hm,rfl⟩ := List.mem_map.mp him
      exact .inr (.inr ⟨m,Option.mem_toList.mp hm,rfl⟩)
  -- an item the verifier gives up is confirmed by a queued write, or its pair will recover
  have hfollow : ∀ {id q}, (∀ i ∈ e.items, i.attempt.id = id → i.attempt.signer = q) →
      e.Followed id → e'.Followed id ∨ Engine.Confirming l id ∨
        (e'.pairs q).recoveryRequested = true := by
    intro id q hsig hx
    cases hx with
    | item hm hid =>
      have hsame := hsig _ hm hid
      subst hid hsame
      exact hi _ hm
    | settling hs hid => exact .inl (.settling (hw ▸ hs) hid)
    | parked hm hid => exact .inl (.parked (hd _ hm) hid)
  have hawait : ∀ q, e.Awaited q → e'.Awaited q := by
    rintro q (hx | hx | hx)
    · exact .inl (hreq q hx)
    · exact .inr (.inl (hw ▸ hx))
    · exact hstop q hx
  have hforeign : ∀ op ∈ l, ∀ q, op.Foreign (.recovery q) := by
    intro op hop q
    rcases hl op hop with ⟨a,found,rfl⟩ | rfl
    · trivial
    · intro hx
      cases hx
  refine ⟨h.rows_step hr (fun r _ hx => .inl (hnew _ hx)) ?_,?_,?_,?_,by rw [hw]; exact h.single⟩
  · rintro r hrm hc hin (hx | ⟨a,found,hx,hid⟩ | hx)
    · have hsig : ∀ i ∈ e.items, i.attempt.id = r.id → i.attempt.signer = r.signer := by
        intro i him hid
        exact (congrArg Slot.signer (((hitem him).step hr).names r hrm hid.symm).slot).symm
      rcases hfollow hsig hx with hx | ⟨a,found,hx,hid⟩ | hx
      · exact .inl hx
      · exact .inr (.inl ⟨a,found,by rw [hq]; exact List.mem_append_right _ hx,hid⟩)
      · exact .inr (.inr (.inl (.inl hx)))
    · exact .inr (.inl ⟨a,found,by rw [hq]; exact List.mem_append_left _ hx,hid⟩)
    · right; right
      refine hx.imp (hawait _) ?_
      rw [hw]
      exact fun h => h
  · rw [hq]
    refine h.queued.append ?_ (.of_none ?_)
    · intro a inc now hm ha
      have hk : a.KnownIn c e.store := hh.shared a (mem_shared.mpr (.inl ⟨_,hm,List.mem_cons_self⟩))
      rcases ha with ha | ha
      · have hsig : ∀ i ∈ e.items, i.attempt.id = a.id → i.attempt.signer = a.signer :=
          fun i him hid => (hitem him).signer hk hid
        rcases hfollow hsig ha with hx | hx | hx
        · exact .inl (.inl hx)
        · exact .inr hx
        · exact .inl (.inr (.inl hx))
      · exact .inl (.inr (hawait _ ha))
    · intro a inc now hm
      rcases hl _ hm with ⟨b,found,hx⟩ | hx <;> cases hx
  · intro q
    rw [hq]
    exact (h.fenced q).append fun op hop => hforeign op hop q
  · intro q hne hm
    rw [hw] at hne
    rw [hq] at hm
    rcases List.mem_append.mp hm with hm | hm
    · exact h.quiet q hne hm
    · exact (hforeign _ hm q).ne_flush rfl

/-- The attempt at the head of the queue is minded once it is written. -/
theorem Tracks.head (h : Tracks c e) (hh : Held c e) {op : SettleOp} {rest : List SettleOp}
    {s : Store} (hq : e.queue = op :: rest) (hr : RowStep c op.places e.store s)
    {r : AttemptRow} (hrm : r ∈ s.txAttempts.rows) {b : StoredBlock} (hx : (r.id,b) ∈ op.places) :
    e.Followed r.id ∨ Engine.Confirming rest r.id ∨ e.Awaited r.signer := by
  cases op with
  | confirmation a found => cases hx
  | flush w => cases hx
  | inclusion a inc now =>
    have hid : r.id = a.id := congrArg Prod.fst (List.mem_singleton.mp hx)
    have hk : a.KnownIn c e.store :=
      hh.shared a (mem_shared.mpr (.inl ⟨_,by rw [hq]; exact List.mem_cons_self,List.mem_cons_self⟩))
    have hsig : r.signer = a.signer := congrArg Slot.signer ((hk.step hr).names r hrm hid).slot
    have hback := h.queued
    rw [hq] at hback
    rw [hid,hsig]
    rcases hback.1 with (ha | ha) | ha
    · exact .inl ha
    · exact .inr (.inr ha)
    · exact .inr (.inl ha)

/-- The head of the queue is done with. -/
theorem Tracks.pop (h : Tracks c e) (hh : Held c e) {op : SettleOp} {rest : List SettleOp}
    (hq : e.queue = op :: rest) (hr : RowStep c op.places e.store e'.store)
    (hq' : e'.queue = rest) (hw : e'.workers = e.workers) (hp : e'.pairs = e.pairs)
    (hi : ∀ i ∈ e.items, i ∈ e'.items ∨ e'.Followed i.attempt.id)
    (hd : ∀ op ∈ e.deadLetters, op ∈ e'.deadLetters)
    (hconf : ∀ a found, op = .confirmation a found → e'.Followed a.id ∨
      ∀ r ∈ e'.store.txAttempts.rows, r.id = a.id → r.status ≠ .included) : Tracks c e' := by
  have hsub : ∀ o ∈ rest, o ∈ e.queue := by
    intro o ho
    rw [hq]
    exact List.mem_cons_of_mem _ ho
  have hfollow : ∀ {id}, e.Followed id → e'.Followed id := by
    intro id hx
    refine hx.mono ?_ (fun q a inc todo hs => .settling (hw ▸ hs) rfl) hd
    intro i him hid
    exact (hi i him).elim (fun hm => .item hm hid) (fun hf => hid ▸ hf)
  have hawait : ∀ {q}, e.Awaited q → e'.Awaited q := by
    intro q hx
    unfold Engine.Awaited Engine.Stopped
    rw [hw,hp]
    exact hx
  have hfenced := h.fenced
  have hqueued := h.queued
  rw [hq] at hfenced hqueued
  refine ⟨h.rows_step hr ?_ ?_,?_,?_,?_,?_⟩
  · intro r hrm hx
    rcases h.head hh hq hr hrm hx with hx | hx | hx
    · exact .inl (hfollow hx)
    · exact .inr (.inl (hq' ▸ hx))
    · exact .inr (.inr (.inl (hawait hx)))
  · rintro r hrm hc hin (hx | ⟨a,found,hx,hid⟩ | hx)
    · exact .inl (hfollow hx)
    · rw [hq] at hx
      rcases List.mem_cons.mp hx with hx | hx
      · rcases hconf a found hx.symm with hf | hno
        · exact .inl (hid ▸ hf)
        · exact absurd hin (hno r hrm hid.symm)
      · exact .inr (.inl ⟨a,found,hq' ▸ hx,hid⟩)
    · refine .inr (.inr (hx.imp hawait ?_))
      rw [hw]
      exact fun h => h
  · rw [hq']
    exact hqueued.tail.mono fun a inc now _ ha => ha.imp hfollow hawait
  · intro q
    rw [hq']
    exact (hfenced q).2
  · intro q hne hm
    rw [hw] at hne
    exact h.quiet q hne (hsub _ (hq' ▸ hm))
  · rw [hw]
    exact h.single

/-- The answer of a write is lost: the head stays, and will be written again. -/
theorem Tracks.again (h : Tracks c e) (hh : Held c e) {op : SettleOp} {rest : List SettleOp}
    (hq : e.queue = op :: rest) (hr : RowStep c op.places e.store e'.store)
    (hq' : e'.queue = e.queue) (hw : e'.workers = e.workers) (hp : e'.pairs = e.pairs)
    (hi : e'.items = e.items) (hd : e'.deadLetters = e.deadLetters) : Tracks c e' := by
  have hfollow : ∀ {id}, e.Followed id → e'.Followed id := by
    intro id hx
    refine hx.mono (fun i him hid => .item (hi ▸ him) hid) ?_ (fun op hop => hd ▸ hop)
    exact fun q a inc todo hs => .settling (hw ▸ hs) rfl
  have hawait : ∀ {q}, e.Awaited q → e'.Awaited q := by
    intro q hx
    unfold Engine.Awaited Engine.Stopped
    rw [hw,hp]
    exact hx
  refine ⟨h.rows_step hr ?_ ?_,?_,by rw [hq']; exact h.fenced,by rw [hq',hw]; exact h.quiet,
    by rw [hw]; exact h.single⟩
  · intro r hrm hx
    rcases h.head hh hq hr hrm hx with hx | ⟨a,found,hx,hid⟩ | hx
    · exact .inl (hfollow hx)
    · exact .inr (.inl ⟨a,found,by rw [hq',hq]; exact List.mem_cons_of_mem _ hx,hid⟩)
    · exact .inr (.inr (.inl (hawait hx)))
  · rintro r hrm hc hin (hx | hx | hx)
    · exact .inl (hfollow hx)
    · exact .inr (.inl (hq' ▸ hx))
    · refine .inr (.inr (hx.imp hawait ?_))
      rw [hw]
      exact fun h => h
  · rw [hq']
    exact h.queued.mono fun a inc now _ ha => ha.imp hfollow hawait

/-- Everything of the pair that was queued is written, and recovery loads it. -/
theorem Tracks.signalled (h : Tracks c e) {rest : List SettleOp}
    (hq : e.queue = .flush (.recovery p) :: rest) (hw : e.workers p = .flushing) :
    Tracks c ({ e with queue := rest, written := false }.setWorker p .loading) := by
  have hsub : ∀ o ∈ rest, o ∈ e.queue := by
    intro o ho
    rw [hq]
    exact List.mem_cons_of_mem _ ho
  have hfenced := h.fenced
  have hqueued := h.queued
  rw [hq] at hfenced hqueued
  have hforeign := (hfenced p).1 rfl
  have hother : ∀ q, q ≠ p → Function.update e.workers p Worker.loading q = e.workers q :=
    fun q hne => Function.update_of_ne hne _ _
  have hfollow : ∀ {id}, e.Followed id →
      ({ e with queue := rest, written := false }.setWorker p .loading).Followed id := by
    intro id hx
    refine hx.mono (fun i him hid => .item him hid) ?_ (fun _ hm => hm)
    intro q a inc todo hs
    have hne : q ≠ p := by
      rintro rfl
      rw [hw] at hs
      cases hs
    exact .settling ((hother q hne).trans hs) rfl
  refine ⟨?_,?_,fun q => (hfenced q).2,?_,?_⟩
  · intro r hrm hc hin
    rcases h.rows r hrm hc hin with hx | ⟨a,found,hx,hid⟩ | hx
    · exact .inl (hfollow hx)
    · rw [hq] at hx
      rcases List.mem_cons.mp hx with hx | hx
      · cases hx
      · exact .inr (.inl ⟨a,found,hx,hid⟩)
    · right; right
      by_cases hqp : r.signer = p
      · exact .inr (.inl (by rw [hqp]; exact Function.update_self _ _ _))
      · unfold Engine.Listed Engine.Awaited Engine.Stopped
        simp only [Engine.setWorker_workers,Engine.setWorker_pairs,hother _ hqp]
        exact hx
  · refine hqueued.tail.mono ?_
    intro a inc now hm ha
    have hne : a.signer ≠ p := hforeign _ hm
    refine ha.imp hfollow ?_
    intro hx
    unfold Engine.Awaited Engine.Stopped
    simp only [Engine.setWorker_workers,Engine.setWorker_pairs,hother _ hne]
    exact hx
  · intro q hne hm
    by_cases hqp : q = p
    · subst hqp
      exact (hforeign _ hm).ne_flush rfl
    · exact h.quiet q (by rwa [Engine.setWorker_workers,hother q hqp] at hne) (hsub _ hm)
  · intro q
    by_cases hqp : q = p
    · subst hqp
      simp only [Engine.setWorker_workers,Function.update_self]
      exact .nil
    · simp only [Engine.setWorker_workers,hother q hqp]
      exact h.single q

theorem Engine.next_todo {todo : Option (List (List Attempt))} :
    (Engine.next todo).todo = todo.getD [] := by
  cases todo <;> rfl

theorem Engine.resending_todo {group : List Attempt} {todo : List (List Attempt)} :
    (Engine.resending group todo).todo = todo := by
  rcases Engine.resending_cases group todo with h | h <;> rw [h] <;> rfl

theorem mem_loadedPlaces_cons {g : List Attempt} {todo : List (List Attempt)}
    (h : ∃ x ∈ loadedPlaces true (g :: todo), x.1 = id) :
    (∃ a ∈ g, a.status = .included ∧ a.id = id) ∨ ∃ x ∈ loadedPlaces true todo, x.1 = id := by
  obtain ⟨x,hx,hid⟩ := h
  obtain ⟨-,a,ha,hin,rfl⟩ := mem_loadedPlaces.mp hx
  rcases List.mem_append.mp ha with ha | ha
  · exact .inl ⟨a,ha,hin,hid⟩
  · exact .inr ⟨_,mem_loadedPlaces.mpr ⟨rfl,a,ha,hin,rfl⟩,hid⟩

theorem Engine.Listed.of_worker {w : Worker} (hw : e.workers p = w)
    (hx : ∃ x ∈ w.places true, x.1 = id) : e.Listed p id := by
  subst hw
  exact .inr (.inr hx)

@[simp] theorem Pair.resumeIf_requested (q : Pair) (reason : PauseReason) :
    (q.resumeIf reason).recoveryRequested = q.recoveryRequested := by
  unfold Pair.resumeIf
  split <;> rfl

theorem Engine.resumeRecovered_requested (down : Bool) (q : Pair) :
    (Engine.resumeRecovered down q).recoveryRequested = q.recoveryRequested := by
  unfold Engine.resumeRecovered
  cases down <;> simp

theorem Engine.Flags.requested {q : Pair} (h : Engine.Flags e p q)
    (hx : (e.pairs p).recoveryRequested = true) : q.recoveryRequested = true := by
  cases h with
  | pause hp => exact hx
  | resume hr => simpa using hx
  | request f => rfl

/-- A pair that is stopped for an operator only starts again with a recovery. -/
theorem Engine.Flags.stopped {q : Pair} (h : Engine.Flags e p q) (hx : e.Stopped p) :
    q.recoveryRequested = true ∨ q.pause = (e.pairs p).pause := by
  obtain ⟨hw,hp⟩ := hx
  cases h with
  | pause hpause =>
    rw [hw] at hpause
    rcases hp with hp | hp <;> rw [hpause.1] at hp <;> cases hp
  | resume hr =>
    right
    unfold Pair.resumeIf
    rcases hp with hp | hp <;> rcases hr with rfl | rfl <;> simp [hp]
  | request f => exact .inl rfl

theorem OnMissing.flush_item (m : OnMissing) : m.flush.item = m.item := by
  cases m <;> rfl

theorem Engine.signal_items (e : Engine) (rest : List SettleOp) :
    ({ e with queue := rest, written := false }.signal .verifier).items = e.items := by
  unfold Engine.items Engine.signal
  cases e.missing with
  | none => rfl
  | some m => simp [OnMissing.flush_item]

/-- The verifier's items are its deque and the one in hand. -/
theorem Engine.mem_items {i : PendingConfirmation} :
    i ∈ e.items ↔ i ∈ e.pending ∨ ∃ m, e.missing = some m ∧ m.item = i := by
  simp [Engine.items]

theorem Engine.mem_items_in_hand {m : OnMissing} {i : PendingConfirmation}
    (hm : e.missing = some m) (hi : i ∈ e.items) : i ∈ e.pending ∨ i = m.item := by
  refine (Engine.mem_items.mp hi).imp_right ?_
  rintro ⟨m',hm',rfl⟩
  rw [hm] at hm'
  rw [Option.some.inj hm']

/-- What is not the item taken out stays. -/
theorem Engine.mem_items_erased {k : Nat} {item i : PendingConfirmation} (hm : e.missing = none)
    (hk : e.pending[k]? = some item) (hi : i ∈ e.items) :
    i.attempt.id = item.attempt.id ∨ i ∈ e.pending.eraseIdx k := by
  have hpend : i ∈ e.pending := by
    refine (Engine.mem_items.mp hi).resolve_right ?_
    rintro ⟨m,hx,-⟩
    rw [hm] at hx
    cases hx
  obtain ⟨j,hj⟩ := List.mem_iff_getElem?.mp hpend
  by_cases hjk : j = k
  · subst hjk
    rw [hk] at hj
    cases hj
    exact .inl rfl
  · exact .inr (List.mem_eraseIdx_iff_getElem?.mpr ⟨j,hjk,hj⟩)

/-! ## One lemma for each step -/

/-- A step of the verifier leaves the pairs, the workers and the dead letters alone. -/
theorem Tracks.verify (h : Tracks c e) (hh : Held c e) {l : List SettleOp}
    (hr : RowStep c new e.store e'.store) (hnew : ∀ x ∈ new, e'.Followed x.1)
    (hw : e'.workers = e.workers) (hq : e'.queue = e.queue ++ l)
    (hl : ∀ op ∈ l, (∃ a found, op = .confirmation a found) ∨ op = .flush .verifier)
    (hd : e'.deadLetters = e.deadLetters) (hp : e'.pairs = e.pairs)
    (hi : ∀ i ∈ e.items, e'.Followed i.attempt.id ∨ Engine.Confirming l i.attempt.id ∨
      (e'.pairs i.attempt.signer).recoveryRequested = true) : Tracks c e' := by
  refine h.still hh hr hnew hw hq hl ?_ ?_ ?_ hi
  · intro op hop
    rwa [hd]
  · intro q hx
    rwa [hp]
  · intro q hx
    unfold Engine.Awaited Engine.Stopped
    rw [hw,hp]
    exact .inr (.inr hx)

theorem Tracks.flushed (h : Tracks c e) (hh : Held c e) {w : Waiter} {rest : List SettleOp}
    (hq : e.queue = .flush w :: rest) :
    Tracks c ({ e with queue := rest, written := false }.signal w) := by
  cases w with
  | verifier =>
    refine h.pop hh hq (.of_eq rfl) rfl rfl rfl ?_ (fun _ hop => hop) fun a found hx => by cases hx
    intro i him
    exact .inl ((Engine.signal_items e rest) ▸ him)
  | recovery p =>
    simp only [Engine.signal]
    split
    · next hw => exact h.signalled hq hw
    · exact h.pop hh hq (.of_eq rfl) rfl rfl rfl (fun i him => .inl him) (fun _ hop => hop) fun a
        found hx => by cases hx

theorem Tracks.wrote (h : Tracks c e) (hh : Held c e) {op : SettleOp} {rest queue : List SettleOp}
    {written : Bool} {st : Settled} {s : Store} (hq : e.queue = op :: rest)
    (hr : op.run e.store = .ok (st,s)) (hp : Engine.Popped e rest queue written) :
    Tracks c { e with
      store := s
      queue := queue
      written := written
      log := op.notes s st ++ e.log } := by
  cases hp with
  | stays => exact h.again hh hq (SettleOp.rowStep hr) rfl rfl rfl rfl rfl
  | gone =>
    refine h.pop hh hq (SettleOp.rowStep hr) rfl rfl rfl (fun i him => .inl him) (fun _ hop => hop)
      ?_
    rintro a found rfl
    have hs : (confirmInTx e.store a).2 = s := congrArg Prod.snd (Except.ok.inj hr)
    refine .inr ?_
    rw [← hs]
    exact confirmed_gone e.store a

theorem Tracks.parked (h : Tracks c e) (hh : Held c e) {op : SettleOp} {rest : List SettleOp}
    {call : Call} {parks : Bool} (hq : e.queue = op :: rest)
    (he : call.permanent = true ∨ call.reaches = true ∧ ∃ err, op.run e.store = .error err)
    (hcond : Engine.Event.Parks e (.write call parks)) :
    Tracks c { e with
      queue := rest
      written := false
      deadLetters := if parks then op :: e.deadLetters else e.deadLetters } := by
  refine h.pop hh hq (.of_eq rfl) rfl rfl rfl (fun i him => .inl him) ?_ ?_
  · intro o ho
    show o ∈ if parks then op :: e.deadLetters else e.deadLetters
    split
    · exact List.mem_cons_of_mem _ ho
    · exact ho
  · rintro a found rfl
    have hperm : call.permanent = true := by
      refine he.resolve_right fun hx => ?_
      obtain ⟨_,err,hr⟩ := hx
      cases hr
    have hpark : parks = true := hcond _ (by rw [hq]; rfl) rfl hperm
    subst hpark
    left
    have hmem : .confirmation a found ∈ .confirmation a found :: e.deadLetters := List.mem_cons_self
    exact .parked hmem rfl

theorem Tracks.confirmed (h : Tracks c e) (hh : Held c e) {k : Nat} {item : PendingConfirmation}
    {found : BlockRef} (hm : e.missing = none) (hi : e.pending[k]? = some item) :
    Tracks c (({ e with pending := e.pending.eraseIdx k }.push
      (.confirmation item.attempt found)).account .confirmed item.attempt) := by
  refine h.verify (l := [.confirmation item.attempt found]) hh .refl (by simp) rfl rfl ?_ rfl rfl ?_
  · intro op hop
    exact .inl ⟨_,_,List.mem_singleton.mp hop⟩
  · intro i him
    rcases Engine.mem_items_erased hm hi him with hx | hx
    · exact .inr (.inl ⟨_,_,List.mem_cons_self,hx.symm⟩)
    · exact .inl (.item (List.mem_append_left _ hx) rfl)

theorem Tracks.kept (h : Tracks c e) (hh : Held c e) {i : Nat} {item : PendingConfirmation}
    (misses : Nat) (hm : e.missing = none) (hi : e.pending[i]? = some item) :
    Tracks c ({ e with pending := e.pending.eraseIdx i }.submit { item with misses := misses }) :=
      by
  refine h.verify hh .refl (by simp) rfl (List.append_nil _).symm (by simp) rfl rfl ?_
  intro i him
  left
  rcases Engine.mem_items_erased hm hi him with hx | hx
  · exact .item (List.mem_append_left _ (List.mem_append_right _ List.mem_cons_self)) hx.symm
  · exact .item (List.mem_append_left _ (List.mem_append_left _ hx)) rfl

theorem Tracks.asked (h : Tracks c e) (hh : Held c e) {i : Nat} {item : PendingConfirmation}
    (misses : Nat) (hm : e.missing = none) (hi : e.pending[i]? = some item) :
    Tracks c { e with
      pending := e.pending.eraseIdx i
      missing := some (.asking { item with misses := misses }) } := by
  refine h.verify hh .refl (by simp) rfl (List.append_nil _).symm (by simp) rfl rfl ?_
  intro i him
  left
  rcases Engine.mem_items_erased hm hi him with hx | hx
  · exact .item (List.mem_append_right _ List.mem_cons_self) hx.symm
  · exact .item (List.mem_append_left _ hx) rfl

theorem Tracks.stayed (h : Tracks c e) (hh : Held c e) {item : PendingConfirmation} (misses : Nat)
    (hm : e.missing = some (.asking item)) :
    Tracks c ({ e with missing := none }.submit { item with misses := misses }) := by
  refine h.verify hh .refl (by simp) rfl (List.append_nil _).symm (by simp) rfl rfl ?_
  intro i him
  left
  rcases Engine.mem_items_in_hand hm him with hx | rfl
  · exact .item (List.mem_append_left _ (List.mem_append_left _ hx)) rfl
  · exact .item (List.mem_append_left _ (List.mem_append_right _ List.mem_cons_self)) rfl

theorem Tracks.updated (h : Tracks c e) (hh : Held c e) {item : PendingConfirmation} {call : Call}
    {s : Store} (hm : e.missing = some (.moved item true))
    (hs : Engine.Called e (updateInclusionBlock e.store item.attempt item.inclusion.blockNumber
      item.inclusion.blockHash item.inclusion.receipt) call.reaches s) :
    Tracks c ({ e with store := s, missing := none }.submit item) := by
  have hin : ({ e with store := s, missing := none }.submit item).Followed item.attempt.id :=
    .item (List.mem_append_left _ (List.mem_append_right _ List.mem_cons_self)) rfl
  refine h.verify hh (hs.rowStep (.update _ _ _ _ _)) ?_ rfl (List.append_nil _).symm (by simp) rfl
    rfl ?_
  · intro x hx
    rw [List.mem_singleton.mp hx]
    exact hin
  · intro i him
    left
    rcases Engine.mem_items_in_hand hm him with hx | rfl
    · exact .item (List.mem_append_left _ (List.mem_append_left _ hx)) rfl
    · exact hin

theorem Tracks.undone (h : Tracks c e) (hh : Held c e) {item : PendingConfirmation}
    (hm : e.missing = some (.vanished item true)) :
    Tracks c ({ e with
      store := (demoteInclusion e.store item.attempt).2
      missing := none
      log := e.undoing item ++ e.log }.setPair item.attempt.signer
      fun p => (p.pauseFor .reorg .reconcilingNonce).requestRecovery) := by
  refine h.still hh (RowStep.demote _ _ : RowStep c [] _ _) (by simp) rfl (List.append_nil _).symm
    (by simp) (fun _ hop => hop) ?_ ?_ ?_
  · intro q hx
    by_cases hq : q = item.attempt.signer
    · subst hq
      simp [Pair.requestRecovery]
    · simp only [Engine.setPair_pairs,Function.update_of_ne hq]
      exact hx
  · intro q hx
    by_cases hq : q = item.attempt.signer
    · subst hq
      exact .inl (by simp [Pair.requestRecovery])
    · refine .inr (.inr ?_)
      unfold Engine.Stopped
      simp only [Engine.setPair_pairs,Function.update_of_ne hq]
      exact hx
  · intro i him
    rcases Engine.mem_items_in_hand hm him with hx | rfl
    · exact .inl (.item (List.mem_append_left _ hx) rfl)
    · exact .inr (.inr (by simp [Pair.requestRecovery]))

theorem Tracks.notUndone (h : Tracks c e) (hh : Held c e) {item : PendingConfirmation} {call : Call}
    {s : Store} (hm : e.missing = some (.vanished item true))
    (hs : Engine.Called e (demoteInclusion e.store item.attempt).2 call.reaches s) :
    Tracks c ({ e with
      store := s
      missing := none
      log := e.noted call item.attempt item.block ++ e.log }.submit item) := by
  refine h.verify hh (hs.rowStep (RowStep.demote _ _ : RowStep c [] _ _)) (by simp) rfl
    (List.append_nil _).symm (by simp)
    rfl rfl ?_
  intro i him
  left
  rcases Engine.mem_items_in_hand hm him with hx | rfl
  · exact .item (List.mem_append_left _ (List.mem_append_left _ hx)) rfl
  · exact .item (List.mem_append_left _ (List.mem_append_right _ List.mem_cons_self)) rfl

theorem Tracks.boundMore (h : Tracks c e) {p : Address} {epoch : Int} {a : Attempt}
    {kind : BindKind} {s : Store} {attempts : List Attempt} {todo : Option (List (List Attempt))}
    (hw : e.workers p = .driving attempts todo) (hb : bindAttempt e.store epoch a kind = .ok s) :
    Tracks c ({ e with store := s }.setWorker p (.driving (attempts ++ [a]) todo)) := by
  have hsingle := h.single p
  rw [hw] at hsingle
  refine h.worker hw rfl (.bind hb) rfl rfl rfl rfl (fun _ _ => rfl) (fun hx => hx)
    (fun hx => by cases hx) ?_ hsingle
  rintro r - - - - (hx | hx)
  · cases hx
  · exact .of_worker (Function.update_self _ _ _) hx

theorem Tracks.settled (h : Tracks c e) (hh : Held c e) {p : Address} {r : Receipt} {a : Attempt}
    {inc : Inclusion} {attempts : List Attempt} {todo : Option (List (List Attempt))}
    (hw : e.workers p = .driving attempts todo)
    (ha : attempts.find? (fun a => a.txHash = r.transactionHash) = some a) :
    Tracks c ((e.push (.inclusion a inc
      (chain.confirmCheck = .immediate))).setWorker p (.settling a inc todo)) := by
  have hsingle := h.single p
  rw [hw] at hsingle
  have hin : a ∈ (e.workers p).attempts := by
    rw [hw]
    exact List.mem_append_left _ (List.mem_of_find?_eq_some ha)
  have hflushing : e.workers p ≠ .flushing := by
    rw [hw]
    intro hx
    cases hx
  refine h.move (w := .settling a inc todo) (l := [_]) .refl rfl (fun i him => him) rfl rfl
    (fun _ _ => rfl) ?_ hflushing (fun hx => .inl hx) ?_ ?_ hsingle ?_ ?_ ?_
  · intro b inc' todo' hx
    rw [hw] at hx
    cases hx
  · rintro ⟨hx,-⟩
    rw [hw] at hx
    cases hx
  · rintro r - - - - hx
    rw [hw] at hx
    rcases hx with hx | ⟨x,hx,hid⟩
    · cases hx
    · exact .inr (.inr (.of_worker (Function.update_self _ _ _) ⟨x,List.mem_cons_of_mem _ hx,hid⟩))
  · exact ⟨.inl (.inl (.settling (Function.update_self _ _ _) rfl)),trivial⟩
  · intro q
    by_cases hq : q = p
    · subst hq
      exact .push_quiet (h.quiet q hflushing)
    · refine (h.fenced q).append ?_
      intro op hop
      rw [List.mem_singleton.mp hop]
      intro hx
      exact hq (hx.symm.trans (hh.workers p a hin).2)
  · intro q _ hm
    cases List.mem_singleton.mp hm

theorem Tracks.handedOver (h : Tracks c e) (hd : chain.confirmCheck ≠ .immediate) {p : Address}
    {a : Attempt} {inc : Inclusion} {todo : Option (List (List Attempt))}
    (hw : e.workers p = .settling a inc todo) :
    Tracks c ((((if chain.confirmCheck = .immediate then e else e.submit ⟨a,inc,0⟩).setPair
      p fun q => (q.resumeIf .stuckUnresolved).resumeIf .insufficientFunds).account
      .mined a).setWorker p (Engine.next todo)) := by
  have hsingle := h.single p
  rw [hw] at hsingle
  rw [if_neg hd]
  have hnew : ((((e.submit ⟨a,inc,0⟩).setPair p fun q =>
      (q.resumeIf .stuckUnresolved).resumeIf .insufficientFunds).account .mined a).setWorker p
      (Engine.next todo)).Followed a.id :=
    .item (List.mem_append_left _ (List.mem_append_right _ List.mem_cons_self)) rfl
  refine h.move (w := Engine.next todo) (l := []) .refl (List.append_nil _).symm ?_ rfl rfl
    (fun q hne => Function.update_of_ne hne _ _) ?_ ?_ ?_ ?_ ?_ ?_ trivial ?_ ?_
  · intro i him
    rcases List.mem_append.mp him with hx | hx
    · exact List.mem_append_left _ (List.mem_append_left _ hx)
    · exact List.mem_append_right _ hx
  · intro b inc' todo' hx
    rw [hw] at hx
    cases hx
    exact hnew
  · rw [hw]
    intro hx
    cases hx
  · intro hx
    left
    simp only [Engine.setWorker_pairs,Engine.account_pairs,Engine.setPair_pairs,
      Function.update_self,Pair.resumeIf_requested]
    exact hx
  · rintro ⟨hx,-⟩
    rw [hw] at hx
    cases hx
  · rintro r - - - - hx
    rw [hw] at hx
    rcases hx with hx | ⟨x,hx,hid⟩
    · cases hx
    · rcases List.mem_cons.mp hx with rfl | hx
      · exact .inl (hid ▸ hnew)
      · refine .inr (.inr (.of_worker (Function.update_self _ _ _) ?_))
        rw [Engine.next_places]
        exact ⟨x,hx,hid⟩
  · rw [Engine.next_todo]
    exact hsingle
  · intro q
    rw [List.append_nil]
    exact h.fenced q
  · intro q _ hm
    cases hm

theorem Tracks.voided (h : Tracks c e) {p : Address} {foreign : Bool} {attempts : List Attempt}
    {todo : Option (List (List Attempt))} (hw : e.workers p = .driving attempts todo) :
    Tracks c ((e.setPair p fun q =>
      if foreign then q.requestRecovery else q).setWorker p (Engine.next todo)) := by
  have hsingle := h.single p
  rw [hw] at hsingle
  refine h.worker (w := Engine.next todo) hw rfl .refl rfl rfl rfl rfl
    (fun q hne => Function.update_of_ne hne _ _) ?_ (fun hx => by cases hx) ?_
    (by rw [Engine.next_todo]; exact hsingle)
  · intro hx
    cases foreign <;> simp [Pair.requestRecovery,hx]
  · rintro r - - - - (hx | hx)
    · cases hx
    · refine .of_worker (Function.update_self _ _ _) ?_
      rw [Engine.next_places]
      exact hx

theorem Tracks.stuck (h : Tracks c e) {p : Address} {reason : PauseReason} {attempts : List Attempt}
    {todo : Option (List (List Attempt))} (hw : e.workers p = .driving attempts todo)
    (hr : reason = .nonceDrift ∨ reason = .reorg) :
    Tracks c ((e.setPair p (Pair.pauseFor reason .needsOperator)).setWorker p .idle) := by
  refine h.worker hw rfl .refl rfl rfl rfl rfl (fun q hne => Function.update_of_ne hne _ _) ?_
    (fun hx => by cases hx) ?_ .nil
  · intro hx
    simpa [Pair.pauseFor] using hx
  · rintro r - - - - -
    refine .inl (.inr (.inr ⟨Function.update_self _ _ _,?_⟩))
    rcases hr with rfl | rfl
    · exact .inl (by simp [Pair.pauseFor])
    · exact .inr (by simp [Pair.pauseFor])

theorem Tracks.needsRecovery (h : Tracks c e) {p : Address} {f : Pair → Pair}
    {attempts : List Attempt} (hw : e.workers p = .driving attempts none) :
    Tracks c ((e.setPair p fun q => (f q).requestRecovery).setWorker p .idle) := by
  refine h.worker hw rfl .refl rfl rfl rfl rfl (fun q hne => Function.update_of_ne hne _ _) ?_
    (fun hx => by cases hx) ?_ .nil
  · intro _
    simp [Pair.requestRecovery]
  · rintro r - - - - -
    exact .inl (.inl (by simp [Pair.requestRecovery]))

theorem Tracks.recovering (h : Tracks c e) {p : Address} (hw : e.workers p = .idle) :
    Tracks c (((e.setPair p Engine.pauseRecovering).push
      (.flush (.recovery p))).setWorker p .flushing) := by
  have hflushing : e.workers p ≠ .flushing := by
    rw [hw]
    intro hx
    cases hx
  refine h.move (w := .flushing) (l := [_]) .refl rfl (fun i him => him) rfl rfl
    (fun q hne => Function.update_of_ne hne _ _) ?_ hflushing ?_ ?_ ?_ .nil trivial ?_ ?_
  · intro b inc' todo' hx
    rw [hw] at hx
    cases hx
  · exact fun _ => .inr (.inl (Function.update_self _ _ _))
  · exact fun _ => .inr (.inl (Function.update_self _ _ _))
  · rintro r - - - - hx
    rw [hw] at hx
    rcases hx with hx | ⟨x,hx,-⟩ <;> cases hx
  · intro q
    by_cases hq : q = p
    · subst hq
      exact .push_quiet (h.quiet q hflushing)
    · refine (h.fenced q).append ?_
      intro op hop
      rw [List.mem_singleton.mp hop]
      intro hx
      cases hx
      exact hq rfl
  · intro q hne hm
    cases List.mem_singleton.mp hm
    exact hne (Function.update_self _ _ _)

theorem Tracks.loaded (h : Tracks c e) {p : Address} {live : List Attempt}
    (hw : e.workers p = .loading) (hl : loadLiveAttemptsFor e.store c p = .ok live) :
    Tracks c (e.setWorker p (.recovering (byNonce live))) := by
  refine h.worker hw rfl .refl rfl rfl rfl rfl (fun _ _ => rfl) (fun hx => hx)
    (fun hx => by cases hx) ?_ (single_loaded hl)
  intro r hrm hc hin hp _
  exact .of_worker (Function.update_self _ _ _) (included_loaded hl hrm hc hp hin)

theorem Tracks.rebroadcast (h : Tracks c e) {p : Address} {group : List Attempt}
    {todo : List (List Attempt)} (hw : e.workers p = .recovering (group :: todo))
    (hn : group.find? (fun a => a.status = .included) = none) :
    Tracks c ((e.setPair p Engine.pauseResending).setWorker p
      (Engine.resending group todo)) := by
  have hsingle := h.single p
  rw [hw] at hsingle
  refine h.worker (w := Engine.resending group todo) hw rfl .refl rfl rfl rfl rfl
    (fun q hne => Function.update_of_ne hne _ _) ?_ (fun hx => by cases hx) ?_
    (by rw [Engine.resending_todo]; exact hsingle.tail)
  · intro hx
    simpa [Engine.pauseResending,Pair.pauseFor] using hx
  · rintro r - - - - (hx | hx)
    · cases hx
    · refine .of_worker (Function.update_self _ _ _) ?_
      rw [Engine.resending_places]
      rcases mem_loadedPlaces_cons hx with ⟨a,ha,hin,-⟩ | hx
      · have hne := List.find?_eq_none.mp hn a ha
        simp [hin] at hne
      · exact hx

theorem Tracks.lookFailed (h : Tracks c e) {p : Address} {todo : List (List Attempt)}
    (hw : e.workers p = .recovering todo) : Tracks c (e.retryRecovery p) := by
  refine h.worker hw rfl .refl rfl rfl rfl rfl (fun q hne => Function.update_of_ne hne _ _) ?_
    (fun hx => by cases hx) ?_ .nil
  · intro _
    simp [Engine.retryRecovery,Pair.requestRecovery]
  · rintro r - - - - -
    exact .inl (.inl (by simp [Engine.retryRecovery,Pair.requestRecovery]))

theorem Tracks.gone (h : Tracks c e) {p : Address} {a : Attempt} {group : List Attempt}
    {todo : List (List Attempt)} (hw : e.workers p = .recovering (group :: todo))
    (ha : group.find? (fun a => a.status = .included) = some a) :
    Tracks c (e.setWorker p (.demoting a group todo)) := by
  have hsingle := h.single p
  rw [hw] at hsingle
  refine h.worker (w := .demoting a group todo) hw rfl .refl rfl rfl rfl rfl (fun _ _ => rfl)
    (fun hx => hx) (fun hx => by cases hx) ?_ hsingle.tail
  rintro r - - - - (hx | hx)
  · cases hx
  · refine .of_worker (Function.update_self _ _ _) ?_
    rcases mem_loadedPlaces_cons hx with ⟨b,hb,hin,hid⟩ | ⟨x,hx,hid⟩
    · -- it is the one attempt of the nonce that was loaded as included
      have hain : a.status = .included := by simpa using List.find?_some ha
      have hsame := hsingle group List.mem_cons_self b hb a (List.mem_of_find?_eq_some ha) hin hain
      exact ⟨(a.id,a.block),List.mem_cons_self,hsame.symm.trans hid⟩
    · exact ⟨x,List.mem_append_right _ hx,hid⟩

theorem Tracks.resubmitted (h : Tracks c e) {p : Address} {a : Attempt} {inc : Inclusion}
    {group : List Attempt} {todo : List (List Attempt)}
    (hw : e.workers p = .recovering (group :: todo))
    (ha : group.find? (fun a => a.status = .included) = some a) :
    Tracks c ((e.submit ⟨a,inc,0⟩).setWorker p (.recovering todo)) := by
  have hsingle := h.single p
  rw [hw] at hsingle
  have hnew : ((e.submit ⟨a,inc,0⟩).setWorker p (.recovering todo)).Followed a.id :=
    .item (List.mem_append_left _ (List.mem_append_right _ List.mem_cons_self)) rfl
  refine h.move (w := .recovering todo) (l := []) .refl (List.append_nil _).symm ?_ rfl rfl (fun _
    _ => rfl) ?_ ?_
    (fun hx => .inl hx) ?_ ?_ hsingle.tail trivial ?_ ?_
  · intro i him
    rcases List.mem_append.mp him with hx | hx
    · exact List.mem_append_left _ (List.mem_append_left _ hx)
    · exact List.mem_append_right _ hx
  · intro b inc' todo' hx
    rw [hw] at hx
    cases hx
  · rw [hw]
    intro hx
    cases hx
  · rintro ⟨hx,-⟩
    rw [hw] at hx
    cases hx
  · rintro r - - - - hx
    rw [hw] at hx
    rcases hx with hx | hx
    · cases hx
    · rcases mem_loadedPlaces_cons hx with ⟨b,hb,hin,hid⟩ | hx
      · have hain : a.status = .included := by simpa using List.find?_some ha
        have hsame := hsingle group List.mem_cons_self b hb a (List.mem_of_find?_eq_some ha) hin
          hain
        exact .inl (by rw [← hid,hsame]; exact hnew)
      · exact .inr (.inr (.of_worker (Function.update_self _ _ _) hx))
  · intro q
    rw [List.append_nil]
    exact h.fenced q
  · intro q _ hm
    cases hm

theorem Tracks.demoted (h : Tracks c e) {p : Address} {a : Attempt} {group : List Attempt}
    {todo : List (List Attempt)} (hw : e.workers p = .demoting a group todo) :
    Tracks c ((({ e with
      store := (demoteInclusion e.store a).2
      log := e.store.demotion a a.block ++ e.log }.account .demoted a).setPair p
      Engine.pauseResending).setWorker p (Engine.resending group todo)) := by
  have hsingle := h.single p
  rw [hw] at hsingle
  refine h.worker (w := Engine.resending group todo) hw rfl (.demote _ _) rfl rfl rfl rfl
    (fun q hne => Function.update_of_ne hne _ _) ?_ (fun hx => by cases hx) ?_
    (by rw [Engine.resending_todo]; exact hsingle)
  · intro hx
    simpa [Engine.pauseResending,Pair.pauseFor] using hx
  · rintro r hrm hc hin - (hx | ⟨x,hx,hid⟩)
    · cases hx
    · refine .of_worker (Function.update_self _ _ _) ?_
      rw [Engine.resending_places]
      rcases List.mem_append.mp hx with hx | hx
      · -- the inclusion is undone
        rw [List.mem_singleton.mp hx] at hid
        exact absurd hin (demoted_gone e.store a r hrm hid.symm)
      · exact ⟨x,hx,hid⟩

theorem Tracks.notDemoted (h : Tracks c e) {p : Address} {call : Call} {a : Attempt}
    {group : List Attempt} {todo : List (List Attempt)} {s : Store}
    (hw : e.workers p = .demoting a group todo)
    (hs : Engine.Called e (demoteInclusion e.store a).2 call.reaches s) :
    Tracks c ({ e with
      store := s
      log := e.noted call a a.block ++ e.log }.retryRecovery p) := by
  refine h.worker hw rfl (hs.rowStep (.demote _ _)) rfl rfl rfl rfl
    (fun q hne => Function.update_of_ne hne _ _) ?_ (fun hx => by cases hx) ?_ .nil
  · intro _
    simp [Engine.retryRecovery,Pair.requestRecovery]
  · rintro r - - - - -
    exact .inl (.inl (by simp [Engine.retryRecovery,Pair.requestRecovery]))

theorem Tracks.finished (h : Tracks c e) {p : Address} {down : Bool}
    (hw : e.workers p = .recovering []) :
    Tracks c ((e.setPair p (Engine.resumeRecovered down)).setWorker p .idle) := by
  refine h.worker hw rfl .refl rfl rfl rfl rfl (fun q hne => Function.update_of_ne hne _ _) ?_
    (fun hx => by cases hx) ?_ .nil
  · intro hx
    simpa [Engine.resumeRecovered_requested] using hx
  · rintro r - - - - (hx | ⟨x,hx,-⟩) <;> cases hx

theorem Tracks.unfinished (h : Tracks c e) {p : Address} (hw : e.workers p = .recovering []) :
    Tracks c (e.retryRecovery p) := by
  refine h.worker hw rfl .refl rfl rfl rfl rfl (fun q hne => Function.update_of_ne hne _ _) ?_
    (fun hx => by cases hx) ?_ .nil
  · intro _
    simp [Engine.retryRecovery,Pair.requestRecovery]
  · rintro r - - - - (hx | ⟨x,hx,-⟩) <;> cases hx

theorem Tracks.flags (h : Tracks c e) (hh : Held c e) {p : Address} {q : Pair}
    (hf : Engine.Flags e p q) : Tracks c { e with pairs := Function.update e.pairs p q } := by
  refine h.still hh .refl (by simp) rfl (List.append_nil _).symm (by simp) (fun _ hop => hop) ?_ ?_
    fun i him => .inl (.item him rfl)
  · intro q' hx
    by_cases hq : q' = p
    · subst hq
      simp only [Function.update_self]
      exact hf.requested hx
    · simp only [Function.update_of_ne hq]
      exact hx
  · intro q' hx
    unfold Engine.Awaited Engine.Stopped
    by_cases hq : q' = p
    · subst hq
      simp only [Function.update_self]
      rcases hf.stopped hx with hr | hr
      · exact .inl hr
      · rw [hr]
        exact .inr (.inr hx)
    · simp only [Function.update_of_ne hq]
      exact .inr (.inr hx)

theorem Tracks.step (h : Tracks c e) (hh : Held c e) (hs : Engine.Step chain c e ev e')
    (hd : chain.confirmCheck ≠ .immediate) (hcond : ev.Parks e) : Tracks c e' := by
  cases hs with
  | skip => exact h
  | op hi he =>
    exact h.verify hh (.op hi he) (by simp) rfl (List.append_nil _).symm (by simp) rfl rfl
      fun i him => .inl (.item him rfl)
  | signalled hq => exact h.flushed hh hq
  | wrote _ hq _ hr hp => exact h.wrote hh hq hr hp
  | parked _ hq he => exact h.parked hh hq he hcond
  | confirmed hm hi => exact h.confirmed hh hm hi
  | kept misses hm hi => exact h.kept hh misses hm hi
  | asked misses hm hi => exact h.asked hh misses hm hi
  | stayed misses hm => exact h.stayed hh misses hm
  | vanished hm | moved hm =>
    refine h.verify hh .refl (by simp) rfl rfl (by simp) rfl rfl ?_
    intro i him
    left
    rcases Engine.mem_items_in_hand hm him with hx | rfl
    · exact .item (List.mem_append_left _ hx) rfl
    · exact .item (List.mem_append_right _ List.mem_cons_self) rfl
  | updated hm hs => exact h.updated hh hm hs
  | undone hm => exact h.undone hh hm
  | notUndone hm hs => exact h.notUndone hh hm hs
  | picked hw hp =>
    refine h.worker hw rfl .refl rfl rfl rfl rfl (fun _ _ => rfl) (fun hx => hx) ?_ ?_ .nil
    · rintro - ⟨-,hx | hx⟩ <;> rw [hp] at hx <;> cases hx
    · rintro r - - - - (hx | ⟨x,hx,-⟩) <;> cases hx
  | boundFirst hw hc hs hm hb =>
    refine h.worker hw rfl (.bind hb) rfl rfl rfl rfl (fun _ _ => rfl) (fun hx => hx)
      (fun hx => by cases hx) ?_ .nil
    rintro r - - - - (hx | ⟨x,hx,-⟩) <;> cases hx
  | boundMore hw _ _ _ hb => exact h.boundMore hw hb
  | settled hw ha => exact h.settled hh hw ha
  | handedOver hw => exact h.handedOver hd hw
  | dropped hw =>
    refine h.worker hw rfl .refl rfl rfl rfl rfl (fun _ _ => rfl) (fun hx => hx)
      (fun hx => by cases hx) ?_ .nil
    rintro r - - - - (hx | ⟨x,hx,-⟩) <;> cases hx
  | voided hw => exact h.voided hw
  | stuck hw hr => exact h.stuck hw hr
  | needsRecovery hw => exact h.needsRecovery hw
  | recovering hw => exact h.recovering hw
  | loaded hw hl => exact h.loaded hw hl
  | rebroadcast hw hn => exact h.rebroadcast hw hn
  | lookFailed hw => exact h.lookFailed hw
  | gone hw ha => exact h.gone hw ha
  | resubmitted hw ha => exact h.resubmitted hw ha
  | confirmedAtOnce hw ha hi hc => exact absurd hc hd
  | demoted hw => exact h.demoted hw
  | notDemoted hw hs => exact h.notDemoted hw hs
  | finished hw => exact h.finished hw
  | unfinished hw => exact h.unfinished hw
  | flags hf => exact h.flags hh hf
  | restarted manual =>
    refine ⟨fun r _ _ _ => .inr (.inr (.inl (.inl rfl))),trivial,fun _ => trivial,?_,fun _ => .nil⟩
    intro q _ hm
    cases hm

/-- What the invariant says about one row. -/
theorem Tracks.tracked (h : Tracks c e) {r : AttemptRow} (hr : r ∈ e.store.txAttempts.rows)
    (hc : r.chainId = c) (hin : r.status = .included) : e.Tracked r := by
  have hruns : ∀ {w : Worker}, e.workers r.signer = w → w.recovers = true → e.Tracked r := by
    rintro w rfl hw
    exact .inr (.inr (.inr (.inl hw)))
  rcases h.rows r hr hc hin with hx | hx | (hx | hx | hx) | hx | ⟨x,hx,hid⟩
  · exact .inl hx
  · exact .inr (.inl hx)
  · exact .inr (.inr (.inl hx))
  · exact hruns hx rfl
  · exact .inr (.inr (.inr (.inr (hx.2.elim (⟨_,·⟩) (⟨_,·⟩)))))
  · exact hruns hx rfl
  · cases hw : e.workers r.signer with
    | idle | picked | flushing | loading =>
      rw [hw] at hx
      cases hx
    | driving attempts todo =>
      rw [hw] at hx
      cases todo with
      | none => cases hx
      | some todo => exact hruns hw rfl
    | settling a inc todo =>
      rw [hw] at hx
      cases todo with
      | none =>
        rcases List.mem_cons.mp hx with rfl | hx
        · exact .inl (.settling hw hid)
        · cases hx
      | some todo => exact hruns hw rfl
    | recovering todo => exact hruns hw rfl
    | demoting a group todo => exact hruns hw rfl

end Steps

/-! ## Inclusions come first -/

/-- The attempt was included, and not demoted since; the log has the latest note first. -/
def Standing (id : Uuid) : List Note → Prop
  | [] => False
  | .included a :: l => a.id = id ∨ Standing id l
  | .demoted a _ _ :: l => a.id ≠ id ∧ Standing id l
  | _ :: l => Standing id l

/-- Every confirmation was applied to an inclusion that stood. -/
def InOrder : List Note → Prop
  | [] => True
  | .confirmed a _ _ :: l => Standing a.id l ∧ InOrder l
  | _ :: l => InOrder l

section Notes

variable {chain : ChainCtx} {c : ChainId} {e e' : Engine} {ev : Engine.Event} {id : Uuid}
  {l new : List Note}

theorem Standing.aside {s s' : Store} (h : Standing id l) (hn : ∀ n ∈ new, n.Aside s s')
    (hid : ∀ a : Attempt, s' = (demoteInclusion s a).2 → a.id ≠ id) : Standing id (new ++ l) := by
  induction new with
  | nil => exact h
  | cons n new ih =>
    have hrest := ih fun m hm => hn m (List.mem_cons_of_mem _ hm)
    have haside := hn n List.mem_cons_self
    cases n with
    | included a => exact haside.elim
    | confirmed a found stored => exact haside.elim
    | demoted a observed stored => exact ⟨hid a haside,hrest⟩
    | accounted t a => exact hrest
    | restarted => exact hrest

theorem InOrder.aside {s s' : Store} (h : InOrder l) (hn : ∀ n ∈ new, n.Aside s s') :
    InOrder (new ++ l) := by
  induction new with
  | nil => exact h
  | cons n new ih =>
    have hrest := ih fun m hm => hn m (List.mem_cons_of_mem _ hm)
    have haside := hn n List.mem_cons_self
    cases n with
    | confirmed a found stored => exact haside.elim
    | included a => exact hrest
    | demoted a observed stored => exact hrest
    | accounted t a => exact hrest
    | restarted => exact hrest

/-- Whatever is included stands in the log, and confirmations come after inclusions. -/
structure Sequenced (c : ChainId) (e : Engine) : Prop where
  stands : ∀ r ∈ e.store.txAttempts.rows, r.chainId = c → r.status = .included →
    Standing r.id e.log
  ordered : InOrder e.log

/-- A write of the settler. -/
theorem Sequenced.wrote (h : Sequenced c e) (hh : Held c e) {op : SettleOp} {rest : List SettleOp}
    {st : Settled} {s : Store} (hq : e.queue = op :: rest) (hr : op.run e.store = .ok (st,s)) :
    (∀ r ∈ s.txAttempts.rows, r.chainId = c → r.status = .included →
      Standing r.id (op.notes s st ++ e.log)) ∧ InOrder (op.notes s st ++ e.log) := by
  have hrows : ∀ r' ∈ s.txAttempts.rows, r'.chainId = c → r'.status = .included →
      Standing r'.id e.log ∨ (r'.id,r'.block) ∈ op.places := by
    intro r' hr' hc hin
    obtain ⟨r,hrm,hsame,hst⟩ := (SettleOp.rowStep hr).keeps r' hr' hc hin
    refine hst.imp_left fun hst => ?_
    rw [hsame.id]
    exact h.stands r hrm (hsame.chainId ▸ hc) hst.1
  cases op with
  | flush w =>
    refine ⟨fun r hrm hc hin => ?_,h.ordered⟩
    exact (hrows r hrm hc hin).resolve_right List.not_mem_nil
  | inclusion a inc now =>
    rcases settleInclusion_spec hr with ⟨rfl,rfl⟩ | ⟨rfl,-⟩
    · exact ⟨h.stands,h.ordered⟩
    · refine ⟨?_,h.ordered⟩
      intro r hrm hc hin
      rcases hrows r hrm hc hin with hx | hx
      · exact .inr hx
      · exact .inl (congrArg Prod.fst (List.mem_singleton.mp hx)).symm
  | confirmation a found =>
    have hold : ∀ r ∈ s.txAttempts.rows, r.chainId = c → r.status = .included →
        Standing r.id e.log :=
      fun r hrm hc hin => (hrows r hrm hc hin).resolve_right List.not_mem_nil
    cases st with
    | noop => exact ⟨hold,h.ordered⟩
    | applied =>
      refine ⟨hold,?_,h.ordered⟩
      -- the row it was applied to was included
      have hk : a.KnownIn c e.store := hh.shared a (mem_shared.mpr
        (.inl ⟨_,by rw [hq]; exact List.mem_cons_self,List.mem_cons_self⟩))
      have hrun : confirmInTx e.store a = (.applied,s) := Except.ok.inj hr
      rcases confirmInTx_spec e.store a with hx | ⟨-,hx⟩
      · rw [hx] at hrun
        cases hrun
      · obtain ⟨r,hrm,hid,hin⟩ := hx.found
        have hchain : r.chainId = c := (congrArg Slot.chainId (hk.names r hrm hid).slot).trans hk.1
        exact hid ▸ h.stands r hrm hchain hin

theorem Sequenced.step (h : Sequenced c e) (hh : Held c e) (hs : Engine.Step chain c e ev e') :
    Sequenced c e' := by
  rcases hs.log with ⟨op,rest,st,hq,hr,hlog⟩ | ⟨hstill,new,hlog,hnew⟩
  · have hwrote := h.wrote hh hq hr
    exact ⟨by rw [hlog]; exact hwrote.1,by rw [hlog]; exact hwrote.2⟩
  · refine ⟨?_,by rw [hlog]; exact h.ordered.aside hnew⟩
    intro r hr hc hin
    obtain ⟨q,hq,hid,hqc,hqin⟩ := hstill r hr hc hin
    rw [hlog]
    refine (hid ▸ h.stands q hq hqc hqin).aside hnew ?_
    intro a hs hx
    rw [hs] at hr
    exact demoted_gone e.store a r hr hx.symm hin

end Notes

/-- As long as a confirmation that is refused for good can be parked, every stored inclusion
is tracked; and no confirmation is ever applied before its inclusion. -/
theorem inclusions_tracked {chain : ChainCtx} {c : ChainId} {e : Engine}
    (hd : chain.confirmCheck ≠ .immediate)
    (h : ((confirmation chain c).restrict fun e ev => ev.Parks e).Reaches Engine.init e) :
    (∀ r ∈ e.store.txAttempts.rows, r.chainId = c → r.status = .included → e.Tracked r) ∧
      InOrder e.log := by
  have hall : Held c e ∧ Tracks c e ∧ Sequenced c e := by
    refine h.invariant (I := fun e => Held c e ∧ Tracks c e ∧ Sequenced c e) ⟨.init,?_,?_⟩ ?_
    · refine ⟨?_,trivial,fun _ => trivial,?_,fun _ => .nil⟩
      · intro r hr
        cases hr
      · intro q _ hm
        cases hm
    · exact ⟨fun r hr => (by cases hr),trivial⟩
    · rintro e ev ⟨hh,ht,hq⟩ ⟨hp,hcond⟩
      have hs : Engine.Step chain c e ev (e.step chain c ev) := .of_possible hp
      exact ⟨hh.step hs,ht.step hh hs hd hcond,hq.step hh hs⟩
  obtain ⟨-,ht,hq⟩ := hall
  exact ⟨fun r hr hc hin => ht.tracked hr hc hin,hq.ordered⟩

instance (e : Engine) : DecidablePred (Engine.Event.Parks e)
  | .write call parks => inferInstanceAs (Decidable (∀ op ∈ e.queue.head?,
      op.isConfirmation = true → call.permanent = true → parks = true))
  | .check _ _ | .resolve _ | .op _ | .lookup _ | .pick _ | .bound _ _ _ _ | .receipt _ _
  | .handOver _ | .leave _ _ | .recover _ | .load _ | .look _ _ | .undo _ _ | .finish _ _ _
  | .pause _ _ | .resumeIf _ _ | .requestRecovery _ | .operatorResume _ | .restart _ =>
    .isTrue trivial

namespace Sample

/-- After a failover the database only reads: the confirmation is refused with
`read_only_sql_transaction`, and then the attempt to park it. -/
def readOnly (parks : Bool) : List Engine.Event :=
  included ++ [.check 0 ⟨fun n => some ⟨n,100,[3]⟩,none⟩,
    .write (.refused (.db (.database "25006"))) parks]

end Sample

theorem inclusions_tracked_parked :
    Sample.ethereum.confirmCheck ≠ .immediate ∧
      ∃ e, ((confirmation Sample.ethereum 1).restrict fun e ev => ev.Parks e).Reaches Engine.init e ∧
        e.store.txAttempts.rows.map AttemptRow.status = [.included] ∧ e.queue = [] ∧
        (∀ r ∈ e.store.txAttempts.rows, r.chainId = 1 → r.status = .included → e.Tracked r) ∧
        InOrder e.log := by
  have hd : Sample.ethereum.confirmCheck ≠ .immediate := by decide
  have hrun : ((confirmation Sample.ethereum 1).restrict fun e ev => ev.Parks e).Runs Engine.init
      (Sample.readOnly true) := by decide +kernel
  exact ⟨hd,_,hrun.reaches,by decide +kernel,by decide +kernel,inclusions_tracked hd hrun.reaches⟩

/-- Neither confirmed nor parked, the inclusion is forgotten. -/
theorem inclusion_forgotten :
    Sample.ethereum.confirmCheck ≠ .immediate ∧
      ∃ e, (confirmation Sample.ethereum 1).Reaches Engine.init e ∧
        ¬ ∀ r ∈ e.store.txAttempts.rows, r.chainId = 1 → r.status = .included → e.Tracked r := by
  have hrun : (confirmation Sample.ethereum 1).Runs Engine.init (Sample.readOnly false) := by
    decide +kernel
  refine ⟨by decide,_,hrun.reaches,?_⟩
  intro hall
  have hheld := Held.of_reaches hrun.reaches
  obtain ⟨r,hr,hc,hin,hp⟩ : ∃ r ∈ ((Sample.readOnly false).foldl
      (confirmation Sample.ethereum 1).step Engine.init).store.txAttempts.rows,
      r.chainId = 1 ∧ r.status = .included ∧ r.signer = 9 := by decide +kernel
  have hidle : ((Sample.readOnly false).foldl (confirmation Sample.ethereum 1).step
      Engine.init).workers 9 = .idle := by decide +kernel
  have hpair : ((Sample.readOnly false).foldl (confirmation Sample.ethereum 1).step
      Engine.init).pairs 9 = ⟨none,false,false⟩ := by decide +kernel
  have hempty : ((Sample.readOnly false).foldl (confirmation Sample.ethereum 1).step
      Engine.init).items = [] ∧ ((Sample.readOnly false).foldl
      (confirmation Sample.ethereum 1).step Engine.init).deadLetters = [] ∧
      ((Sample.readOnly false).foldl (confirmation Sample.ethereum 1).step Engine.init).queue = [] := by
    decide +kernel
  obtain ⟨hitems,hdead,hqueue⟩ := hempty
  rcases hall r hr hc hin with hx | ⟨a,found,hx,-⟩ | hx | hx | ⟨why,hx⟩
  · cases hx with
    | item h hid =>
      rw [hitems] at h
      cases h
    | settling h hid =>
      -- only the pair that signed an attempt settles it
      obtain ⟨hk,hsig⟩ := hheld.workers _ _ (by rw [h]; exact List.mem_cons_self)
      have hq := (congrArg Slot.signer (hk.names r hr hid.symm).slot).symm.trans hp
      rw [hsig.symm.trans hq] at h
      rw [hidle] at h
      cases h
    | parked h hid =>
      rw [hdead] at h
      cases h
  · rw [hqueue] at hx
    cases hx
  · rw [hp,hpair] at hx
    cases hx
  · rw [hp,hidle] at hx
    cases hx
  · rw [hp,hpair] at hx
    cases hx

end GumEngine
