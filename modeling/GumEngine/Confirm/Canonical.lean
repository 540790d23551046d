import GumEngine.Confirm.Places
import GumEngine.Confirm.Order
import GumEngine.Laws.Receipts

/-!
# The block of a confirmed job

A confirmation names no block: the store keeps what the inclusion, or a later move, wrote.
That is the block in which the check found the transaction as long as the places of the
attempt agree, the check looked at the block on record, and a move was written for the
attempt that its job points at. FIFO and flushes do the rest.
-/

namespace GumEngine
open Relational Transition

/-! ## The order of the queue -/

/-- What is stored, and written before it, agrees with each queued confirmation. -/
def Follows : List Place → List SettleOp → Prop
  | _,[] => True
  | acc,.confirmation a found :: q =>
    (∀ x ∈ acc, x.1 = a.id → x.2 = found.stored) ∧ Follows acc q
  | acc,op :: q => Follows (op.places ++ acc) q

section Queue

variable {acc acc' : List Place} {q : List SettleOp} {op : SettleOp}

theorem Follows.mono (h : Follows acc q) (hsub : ∀ x ∈ acc', x ∈ acc) : Follows acc' q := by
  induction q generalizing acc acc' with
  | nil => trivial
  | cons op q ih =>
    have hop : Follows (op.places ++ acc) q → Follows (op.places ++ acc') q := by
      intro h
      refine ih h ?_
      intro x hx
      rcases List.mem_append.mp hx with hx | hx
      · exact List.mem_append_left _ hx
      · exact List.mem_append_right _ (hsub x hx)
    cases op with
    | confirmation a found => exact ⟨fun x hx => h.1 x (hsub x hx),ih h.2 hsub⟩
    | inclusion a inc now => exact hop h
    | flush w => exact hop h

/-- The head is written. -/
theorem Follows.tail (h : Follows acc (op :: q)) : Follows (op.places ++ acc) q := by
  cases op with
  | confirmation a found => exact h.2
  | inclusion a inc now => exact h
  | flush w => exact h

theorem Follows.push (h : Follows acc q)
    (hop : ∀ a found, op = .confirmation a found → ∀ x,
      x ∈ acc ∨ x ∈ q.flatMap SettleOp.places → x.1 = a.id → x.2 = found.stored) :
    Follows acc (q ++ [op]) := by
  induction q generalizing acc with
  | nil =>
    cases op with
    | confirmation a found => exact ⟨fun x hx => hop a found rfl x (.inl hx),trivial⟩
    | inclusion a inc now => trivial
    | flush w => trivial
  | cons o q ih =>
    have hmove : ∀ a found, op = .confirmation a found → ∀ x,
        x ∈ o.places ++ acc ∨ x ∈ q.flatMap SettleOp.places → x.1 = a.id → x.2 = found.stored := by
      intro a found ho x hx
      refine hop a found ho x ?_
      rw [List.flatMap_cons,List.mem_append]
      rcases hx with hx | hx
      · exact (List.mem_append.mp hx).symm.imp_right .inl
      · exact .inr (.inr hx)
    cases o with
    | confirmation b found => exact ⟨h.1,ih h.2 hmove⟩
    | inclusion b inc now => exact ih h hmove
    | flush w => exact ih h hmove

theorem Follows.of_clear (h : ∀ a found, .confirmation a found ∉ q) : Follows acc q := by
  induction q generalizing acc with
  | nil => trivial
  | cons op q ih =>
    have hq : ∀ acc, Follows acc q :=
      fun acc => ih fun a found hm => h a found (List.mem_cons_of_mem _ hm)
    cases op with
    | confirmation a found => exact absurd List.mem_cons_self (h a found)
    | inclusion a inc now => exact hq _
    | flush w => exact hq _

end Queue

def OnMissing.waits : OnMissing → Bool
  | moved _ false | vanished _ false => true
  | _ => false

def OnMissing.flushed : OnMissing → Bool
  | moved _ true | vanished _ true => true
  | _ => false

/-- The item whose move is about to be written. -/
def OnMissing.moving : OnMissing → Option PendingConfirmation
  | moved item true => some item
  | _ => none

/-- The queue in its order, and what the verifier knows of it. -/
structure Ordered (c : ChainId) (e : Engine) : Prop where
  follows : Follows (e.store.places c) e.queue
  fenced : Barred .verifier e.queue
  quiet : (∀ m ∈ e.missing, m.waits = false) → .flush .verifier ∉ e.queue
  clear : ∀ m ∈ e.missing, m.flushed = true → ∀ op ∈ e.queue, op.Foreign .verifier

section Order

variable {c : ChainId} {e e' : Engine} {op : SettleOp} {rest : List SettleOp}

theorem Follows.of_foreign {acc : List Place} {q : List SettleOp} (h : ∀ op ∈ q, op.Foreign .verifier) :
    Follows acc q :=
  .of_clear fun _ _ hm => h _ hm

/-- A task other than the verifier moves: it may queue a write of its own. -/
theorem Ordered.others (h : Ordered c e) (hs : ∀ x ∈ e'.store.places c, x ∈ e.store.places c)
    (hq : e'.queue = e.queue ∨ ∃ op : SettleOp, op.Foreign .verifier ∧ e'.queue = e.queue ++ [op])
    (hm : e'.missing = e.missing) : Ordered c e' := by
  rcases hq with hq | ⟨op,hop,hq⟩
  · refine ⟨?_,?_,?_,?_⟩
    · rw [hq]
      exact h.follows.mono hs
    · rw [hq]
      exact h.fenced
    · rw [hq,hm]
      exact h.quiet
    · rw [hq,hm]
      exact h.clear
  · refine ⟨?_,?_,?_,?_⟩
    · rw [hq]
      refine (h.follows.mono hs).push ?_
      rintro a found rfl
      exact hop.elim
    · rw [hq]
      refine h.fenced.append ?_
      intro o ho
      rw [List.mem_singleton.mp ho]
      exact hop
    · rw [hq,hm]
      intro hw hin
      rcases List.mem_append.mp hin with hin | hin
      · exact h.quiet hw hin
      · exact hop.ne_flush (List.mem_singleton.mp hin).symm
    · rw [hq,hm]
      intro m hmm hf o ho
      rcases List.mem_append.mp ho with ho | ho
      · exact h.clear m hmm hf o ho
      · rw [List.mem_singleton.mp ho]
        exact hop

/-- The head of the queue, which is no flush of the verifier, is done with. -/
theorem Ordered.pop (h : Ordered c e) (hq : e.queue = op :: rest)
    (hs : ∀ x ∈ e'.store.places c, x ∈ e.store.places c ∨ x ∈ op.places)
    (hq' : e'.queue = rest) (hm : e'.missing = e.missing) : Ordered c e' := by
  have hsub : ∀ o ∈ rest, o ∈ e.queue := by
    intro o ho
    rw [hq]
    exact List.mem_cons_of_mem _ ho
  have hfollows := h.follows
  have hfenced := h.fenced
  rw [hq] at hfollows hfenced
  refine ⟨?_,?_,?_,?_⟩
  · rw [hq']
    refine hfollows.tail.mono ?_
    intro x hx
    exact List.mem_append.mpr (hs x hx).symm
  · rw [hq']
    exact hfenced.2
  · rw [hq',hm]
    exact fun hw hin => h.quiet hw (hsub _ hin)
  · rw [hq',hm]
    exact fun m hmm hf o ho => h.clear m hmm hf o (hsub o ho)

/-- The verifier moves and does not wait afterwards; it did not wait before. -/
theorem Ordered.verifier (h : Ordered c e) (hs : ∀ x ∈ e'.store.places c, x ∈ e.store.places c)
    (hq : e'.queue = e.queue) (hw : ∀ m ∈ e.missing, m.waits = false)
    (hm : ∀ m ∈ e'.missing, m.flushed = false) : Ordered c e' := by
  have hquiet := h.quiet hw
  refine ⟨?_,?_,?_,?_⟩
  · rw [hq]
    exact h.follows.mono hs
  · rw [hq]
    exact h.fenced
  · rw [hq]
    exact fun _ => hquiet
  · intro m hmm hf
    rw [hm m hmm] at hf
    cases hf

end Order

/-! ## The condition -/

/-- The check sees the transaction nowhere but in the block on record, and a move is written
for the attempt with which its job is included. -/
def Engine.Event.Sound (chain : ChainCtx) (e : Engine) : Event → Prop
  | .check i view => ∀ item ∈ e.pending[i]?, view.Straight chain.confirmCheck item.inclusion
  | .resolve call => ∀ item ∈ e.missing.bind OnMissing.moving, call.reaches = true →
      item.attempt.purpose = .job → ∀ j ∈ e.store.jobs.rows,
      item.attempt.owner = .job j.id → j.status = .included →
        ∃ r ∈ e.store.txAttempts.rows, r.id = item.attempt.id ∧ r.status = .included
  | _ => True

instance (chain : ChainCtx) (e : Engine) : DecidablePred (Engine.Event.Sound chain e)
  | .check i view => inferInstanceAs (Decidable
      (∀ item ∈ e.pending[i]?, view.Straight chain.confirmCheck item.inclusion))
  | .resolve call => inferInstanceAs (Decidable (∀ item ∈ e.missing.bind OnMissing.moving,
      call.reaches = true → item.attempt.purpose = .job → ∀ j ∈ e.store.jobs.rows,
      item.attempt.owner = .job j.id → j.status = .included →
        ∃ r ∈ e.store.txAttempts.rows, r.id = item.attempt.id ∧ r.status = .included))
  | .op _ | .write _ _ | .lookup _ | .pick _ | .bound _ _ _ _ | .receipt _ _ | .handOver _
  | .leave _ _ | .recover _ | .load _ | .look _ _ | .undo _ _ | .finish _ _ _ | .pause _ _
  | .resumeIf _ _ | .requestRecovery _ | .operatorResume _ | .restart _ => .isTrue trivial

section Steps

variable {chain : ChainCtx} {c : ChainId} {e e' : Engine} {ev : Engine.Event}

/-- The head is a flush: one of the verifier has nothing of the verifier behind it. -/
theorem Ordered.flushed (h : Ordered c e) {w : Waiter} {rest : List SettleOp}
    (hq : e.queue = .flush w :: rest) :
    Ordered c ({ e with queue := rest, written := false }.signal w) := by
  cases w with
  | recovery p =>
    simp only [Engine.signal]
    split <;> exact h.pop hq (fun _ => .inl) rfl rfl
  | verifier =>
    have hfollows := h.follows
    have hfenced := h.fenced
    rw [hq] at hfollows hfenced
    have hforeign := hfenced.1 rfl
    refine ⟨hfollows.tail.mono fun _ => id,?_,?_,?_⟩
    · exact hfenced.2
    · exact fun _ hm => (hforeign _ hm).ne_flush rfl
    · exact fun _ _ _ => hforeign

/-- A write that will come again puts the attempt where it is. -/
theorem Ordered.repeats (h : Ordered c e) {op : SettleOp} {rest : List SettleOp} {s : Store}
    (hf : ∀ w, op ≠ .flush w) (hq : e.queue = op :: rest)
    (hplaces : ∀ x ∈ s.places c, x ∈ e.store.places c ∨ x ∈ op.places) :
    Follows (s.places c) e.queue := by
  have hfollows := h.follows
  rw [hq] at hfollows ⊢
  cases op with
  | inclusion a inc now =>
    show Follows ([(a.id,inc.stored)] ++ s.places c) rest
    refine hfollows.tail.mono ?_
    intro x hx
    rcases List.mem_append.mp hx with hx | hx
    · exact List.mem_append_left _ hx
    · exact List.mem_append.mpr (hplaces x hx).symm
  | confirmation a found =>
    exact hfollows.mono fun x hx => (hplaces x hx).resolve_right List.not_mem_nil
  | flush w => exact absurd rfl (hf w)

theorem Ordered.wrote (h : Ordered c e) {op : SettleOp} {rest queue : List SettleOp}
    {written : Bool} {st : Settled} {s : Store} (hf : ∀ w, op ≠ .flush w) (hq : e.queue = op :: rest)
    (hr : op.run e.store = .ok (st,s)) (hp : Engine.Popped e rest queue written) :
    Ordered c { e with
      store := s
      queue := queue
      written := written
      log := op.notes s st ++ e.log } := by
  have hplaces : ∀ x ∈ s.places c, x ∈ e.store.places c ∨ x ∈ op.places :=
    fun x => (SettleOp.rowStep hr).places
  cases hp with
  | gone => exact h.pop hq hplaces rfl rfl
  | stays => exact ⟨h.repeats hf hq hplaces,h.fenced,h.quiet,h.clear⟩

/-- The block that was found is the one on record, with which everything stored or queued agrees. -/
theorem Ordered.confirmed (h : Ordered c e) (ha : e.Agrees false c) {i : Nat}
    {item : PendingConfirmation} {found : BlockRef} (hm : e.missing = none)
    (hi : e.pending[i]? = some item) (hfound : found = item.inclusion.block) :
    Ordered c (({ e with pending := e.pending.eraseIdx i }.push
      (.confirmation item.attempt found)).account .confirmed item.attempt) := by
  have hquiet := h.quiet (by simp [hm])
  refine ⟨h.follows.push ?_,.push_quiet hquiet,?_,?_⟩
  · intro a f heq x hx hid
    cases heq
    have hplace : (item.attempt.id,item.block) ∈ e.places false c 0 :=
      Engine.pending_places (List.mem_of_getElem? hi)
    have hx' : x ∈ e.places false c 0 := by
      rcases hx with hx | hx
      · exact mem_places.mpr (.inl hx)
      · exact mem_places.mpr (.inr (.inl (List.mem_flatMap.mp hx)))
    rw [ha 0 x hx' _ hplace hid,hfound]
    rfl
  · intro _ hin
    rcases List.mem_append.mp hin with hin | hin
    · exact hquiet hin
    · cases List.mem_singleton.mp hin
  · intro m hmm
    have hmm' : e.missing = some m := hmm
    rw [hm] at hmm'
    cases hmm'

/-- `on_missing` queues its flush and waits for it. -/
theorem Ordered.flushing (h : Ordered c e) {m : OnMissing} (hw : ∀ x ∈ e.missing, x.waits = false)
    (hwaits : m.waits = true) (hf : m.flushed = false) :
    Ordered c ({ e with missing := some m }.push (.flush .verifier)) := by
  refine ⟨h.follows.push ?_,.push_quiet (h.quiet hw),?_,?_⟩
  · intro a found hx
    cases hx
  · intro hno
    rw [hno m rfl] at hwaits
    cases hwaits
  · intro x hx hfx
    cases hx
    rw [hf] at hfx
    cases hfx

/-- A queued confirmation agrees with all that is stored or queued before it. -/
theorem Ordered.step (h : Ordered c e) (ha : e.Agrees false c)
    (hs : Engine.Step chain c e ev e') (hd : chain.confirmCheck ≠ .immediate)
    (hcond : ev.Sound chain e) : Ordered c e' := by
  have hsub : ∀ {s : Store}, RowStep c [] e.store s → ∀ x ∈ s.places c, x ∈ e.store.places c :=
    fun hr x hx => (hr.places hx).resolve_right List.not_mem_nil
  have hself : ∀ x ∈ e.store.places c, x ∈ e.store.places c := fun _ => id
  cases hs with
  | skip => exact h
  | op hi he => exact h.others (hsub (.op hi he)) (.inl rfl) rfl
  | signalled hq => exact h.flushed hq
  | wrote hf hq hc hr hp => exact h.wrote hf hq hr hp
  | parked hf hq => exact h.pop hq (fun _ => .inl) rfl rfl
  | confirmed hm hi hv => exact h.confirmed ha hm hi (check_found (hcond _ hi) hv)
  | kept misses hm hi => exact h.verifier hself rfl (by simp [hm]) (by simp [hm])
  | asked misses hm hi => exact h.verifier hself rfl (by simp [hm]) (by simp [OnMissing.flushed])
  | stayed misses hm => exact h.verifier hself rfl (by simp [hm,OnMissing.waits]) (by simp)
  | vanished hm | moved hm => exact h.flushing (by simp [hm,OnMissing.waits]) rfl rfl
  | updated hm hs =>
    -- no confirmation is queued behind the flush
    have hclear := h.clear _ hm rfl
    have hquiet := h.quiet (by simp [hm,OnMissing.waits])
    refine ⟨.of_foreign hclear,h.fenced,fun _ => hquiet,?_⟩
    intro m hmm
    cases hmm
  | undone hm =>
    exact h.verifier (hsub (.demote _ _)) rfl (by simp [hm,OnMissing.waits]) (by simp)
  | notUndone hm hs =>
    exact h.verifier (hsub (hs.rowStep (.demote _ _))) rfl (by simp [hm,OnMissing.waits]) (by simp)
  | boundFirst hw hc hs hm hb => exact h.others (hsub (.bind hb)) (.inl rfl) rfl
  | boundMore hw hc hs hm hb => exact h.others (hsub (.bind hb)) (.inl rfl) rfl
  | settled hw ha hi =>
    refine h.others hself (.inr ⟨_,?_,rfl⟩) rfl
    trivial
  | handedOver hw =>
    split <;> exact h.others hself (.inl rfl) rfl
  | recovering hw hr =>
    refine h.others hself (.inr ⟨_,?_,rfl⟩) rfl
    intro hx
    cases hx
  | confirmedAtOnce hw ha hi hc => exact absurd hc hd
  | demoted hw hc => exact h.others (hsub (.demote _ _)) (.inl rfl) rfl
  | notDemoted hw hs => exact h.others (hsub (hs.rowStep (.demote _ _))) (.inl rfl) rfl
  | restarted manual =>
    refine ⟨trivial,trivial,?_,?_⟩
    · intro _ hm
      cases hm
    · intro m hm
      cases hm
  | _ => exact h.others hself (.inl rfl) rfl

/-! ## The block of the job -/

/-- The transaction that a step commits. -/
inductive Engine.Transacts (c : ChainId) (e : Engine) (ev : Engine.Event) : Store → Prop
  | none : Transacts c e ev e.store
  | other {o : Op} (hi : o.Issued e.store)
      (hm : ∀ a number hash receipt, o = .updateInclusionBlock a number hash receipt →
        o.Elsewhere c e.store) : Transacts c e ev (o.apply e.store)
  | moved {item : PendingConfirmation} {call : Call} (hm : e.missing = some (.moved item true))
      (he : ev = .resolve call) (hr : call.reaches = true) :
      Transacts c e ev ((Op.updateInclusionBlock item.attempt item.inclusion.blockNumber
        item.inclusion.blockHash item.inclusion.receipt).apply e.store)

theorem Engine.Called.transacts {call : Call} {o : Op} {s : Store}
    (h : Engine.Called e (o.apply e.store) call.reaches s) (hi : o.Issued e.store)
    (hm : ∀ a number hash receipt, o ≠ .updateInclusionBlock a number hash receipt) :
    Engine.Transacts c e ev s := by
  generalize call.reaches = b at h
  cases h with
  | done => exact .other hi fun a number hash receipt ho => absurd ho (hm a number hash receipt)
  | refused => exact .none

theorem Engine.Step.transacts (h : Held c e) (hs : Engine.Step chain c e ev e') :
    Engine.Transacts c e ev e'.store := by
  have hdemote : ∀ {a : Attempt}, a.KnownIn c e.store →
      Engine.Transacts c e ev (demoteInclusion e.store a).2 := by
    intro a hk
    exact .other (o := .demoteInclusion a) hk.names fun _ _ _ _ ho => by cases ho
  have hitem : ∀ {m : OnMissing}, e.missing = some m → m.item.attempt.KnownIn c e.store :=
    fun hm => h.shared _ (mem_shared.mpr (.inr (.inr ⟨_,hm,rfl⟩)))
  have hbind : ∀ {epoch : Int} {a : Attempt} {kind : BindKind} {s : Store},
      a.MayBind e.store kind → bindAttempt e.store epoch a kind = .ok s →
      Engine.Transacts c e ev s := by
    intro epoch a kind s hm hb
    have hs : (Op.bindAttempt epoch a kind).apply e.store = s := by
      simp only [Op.apply,hb]
      rfl
    rw [← hs]
    exact .other hm fun _ _ _ _ ho => by cases ho
  cases hs with
  | op hi he => exact .other hi fun _ _ _ _ _ => he
  | signalled hq =>
    next w rest call parks =>
    cases w with
    | verifier => exact .none
    | recovery p =>
      simp only [Engine.signal]
      split <;> exact .none
  | wrote hf hq hc hr hp =>
    next op rest queue call parks written st s =>
    have hknown : ∀ a ∈ op.attempts, a.KnownIn c e.store := by
      intro a ha
      exact h.shared a (mem_shared.mpr (.inl ⟨op,by rw [hq]; exact List.mem_cons_self,ha⟩))
    cases op with
    | inclusion a inc now =>
      have hs : (Op.settleInclusion a inc now).apply e.store = s := by
        have hr' : settleInclusion e.store a inc now false = .ok (st,s) := hr
        simp only [Op.apply,hr']
        rfl
      show Engine.Transacts c e _ s
      rw [← hs]
      exact .other (hknown a List.mem_cons_self).names fun _ _ _ _ ho => by cases ho
    | confirmation a found =>
      have hs : (Op.settleConfirmation a).apply e.store = s :=
        congrArg Prod.snd (Except.ok.inj hr)
      show Engine.Transacts c e _ s
      rw [← hs]
      exact .other (hknown a List.mem_cons_self).names fun _ _ _ _ ho => by cases ho
    | flush w => exact absurd rfl (hf w)
  | updated hm hs =>
    next item call s =>
    cases hr : call.reaches with
    | true =>
      rw [hr] at hs
      cases hs
      exact .moved hm rfl hr
    | false =>
      rw [hr] at hs
      cases hs
      exact .none
  | undone hm => exact hdemote (hitem hm)
  | notUndone hm hs =>
    exact hs.transacts (o := .demoteInclusion _) (hitem hm).names fun _ _ _ _ ho => by cases ho
  | boundFirst hw hc hs hm hb => exact hbind hm hb
  | boundMore hw hc hs hm hb => exact hbind hm hb
  | handedOver hw => split <;> exact .none
  | demoted hw hc => exact hdemote (h.workers _ _ (by rw [hw]; exact List.mem_cons_self)).1
  | notDemoted hw hs =>
    exact hs.transacts (o := .demoteInclusion _)
      (h.workers _ _ (by rw [hw]; exact List.mem_cons_self)).1.names fun _ _ _ _ ho => by cases ho
  | restarted manual => exact .other (o := .acquire) trivial fun _ _ _ _ ho => by cases ho
  | _ => exact .none

theorem Consistent.engineStep (hc : Consistent e.store) (h : Held c e)
    (hs : Engine.Step chain c e ev e') : Consistent e'.store := by
  have ht := hs.transacts h
  generalize e'.store = s at ht
  cases ht with
  | none => exact hc
  | other hi hm => exact hc.step hi
  | moved hm he hr => exact hc.step (h.shared _ (mem_shared.mpr (.inr (.inr ⟨_,hm,rfl⟩)))).names

/-- A job of the chain is in the block of the attempt that executed it. -/
def SameBlock (c : ChainId) (j : JobRow) (r : AttemptRow) : Prop := r.chainId = c → j.block = r.block

theorem SameBlock.congr {j j' : JobRow} {r r' : AttemptRow} (h : SameBlock c j r)
    (hj : j.SameSummary j') (hr : r.SameMined r') : SameBlock c j' r' := by
  intro hc
  have hold := h (hr.chainId ▸ hc)
  unfold JobRow.block AttemptRow.block at hold ⊢
  rw [hj.blockNumber,hj.blockHash,hr.blockNumber,hr.blockHash]
  exact hold

theorem SameBlock.settle {a : Attempt} {inc : Inclusion} {r : AttemptRow} (hid : r.id = a.id)
    (hb : r.status = .broadcast) (j : JobRow) : SameBlock c (j.toIncluded inc) (settleRow a inc r) := by
  intro _
  simp [JobRow.block,AttemptRow.block,JobRow.toIncluded,settleRow,rewrite,AttemptRow.whereIn,
    AttemptRow.whereSibling,AttemptRow.toIncluded,hid,hb]

/-- Moves on other chains leave the jobs of this one alone. -/
theorem Carries.elsewhere {s : Store} {o : Op} (hc : Consistent s)
    (hm : ∀ a number hash receipt, o = .updateInclusionBlock a number hash receipt →
      o.Elsewhere c s) : Carries (SameBlock c) s o := by
  refine ⟨SameBlock.congr,?_,?_⟩
  · rintro a inc now rfl r - hid hb - j
    exact SameBlock.settle hid hb j
  · rintro a number hash receipt rfl hpa r hr j hj ho hin hi hp hrin hold hrc
    obtain ⟨hne,hjob⟩ := hm a number hash receipt rfl
    have hslot := (hc.fits r hr j hj hi (.inr (.inl hrin))).1
    have hchain : j.request.chainId = r.chainId := by
      unfold JobRow.slot at hslot
      split at hslot
      · exact congrArg Slot.chainId (Option.some.inj hslot)
      · cases hslot
    have hrow : r.chainId = c := (moveRow_same a number hash r).chainId ▸ hrc
    exact absurd ((hjob j.id ho j hj rfl).symm.trans (hchain.trans hrow)) hne

/-- The verifier moves the job together with its attempt. -/
theorem Carries.moved {s : Store} {a : Attempt} {number : Nat} {hash : B256} {receipt : Receipt}
    (hc : Consistent s) (hn : a.Names s)
    (hown : a.purpose = .job → ∀ j ∈ s.jobs.rows, a.owner = .job j.id → j.status = .included →
      ∃ r ∈ s.txAttempts.rows, r.id = a.id ∧ r.status = .included) :
    Carries (SameBlock c) s (.updateInclusionBlock a number hash receipt) := by
  refine ⟨SameBlock.congr,?_,?_⟩
  · intro a inc now ho
    cases ho
  · intro b n h rec heq hpa r hr j hj ho hin hi hp hrin hold hrc
    cases heq
    obtain ⟨x,hx,hxid,hxin⟩ := hown hpa j hj ho hin
    have hxi : x.jobId = some j.id := (hn x hx hxid).jobId_eq_some.mpr ho
    obtain rfl : r = x := hc.only_active hx hr hxi hi (.inl hxin) (.inr (.inl hrin))
    simp [JobRow.block,AttemptRow.block,JobRow.moveTo,moveRow,rewrite,AttemptRow.whereIn,hxid,hrin]

theorem MinedPairs.engineStep (h : MinedPairs (SameBlock c) e.store) (hc : Consistent e.store)
    (hh : Held c e) (hs : Engine.Step chain c e ev e') (hcond : ev.Sound chain e) :
    MinedPairs (SameBlock c) e'.store := by
  have ht := hs.transacts hh
  generalize e'.store = s at ht
  cases ht with
  | none => exact h
  | other hi hm => exact h.step hc hi (.elsewhere hc hm)
  | moved hm he hr =>
    next item call =>
    subst he
    have hn : item.attempt.Names e.store :=
      (hh.shared _ (mem_shared.mpr (.inr (.inr ⟨_,hm,rfl⟩)))).names
    refine h.step hc hn (.moved hc hn (hcond item ?_ hr))
    rw [hm]
    exact rfl

/-! ## Confirmations -/

/-- The job and its attempt are confirmed in the block in which the check saw it. -/
def Note.Canonical : Note → Prop
  | confirmed _ found stored => stored ≠ [] ∧ ∀ b ∈ stored, b = found.stored
  | _ => True

theorem confirmRow_block (a : Attempt) (r : AttemptRow) : (confirmRow a r).block = r.block := by
  have h := confirmRow_sameMined a r
  unfold AttemptRow.block
  rw [h.blockNumber,h.blockHash]

/-- A confirmation that is applied at the head of the queue. -/
theorem Ordered.confirmation_canonical {a : Attempt} {found : BlockRef} {rest : List SettleOp}
    {st : Settled} {s : Store} (h : Ordered c e) (hh : Held c e)
    (hq : e.queue = .confirmation a found :: rest) (hr : settleConfirmation e.store a = (st,s))
    (hp : MinedPairs (SameBlock c) s) :
    ∀ n ∈ (SettleOp.confirmation a found).notes s st, n.Canonical := by
  intro n hn
  have hk : a.KnownIn c e.store :=
    hh.shared a (mem_shared.mpr (.inl ⟨_,by rw [hq]; exact List.mem_cons_self,List.mem_cons_self⟩))
  cases st with
  | noop => cases hn
  | applied =>
    rw [List.mem_singleton.mp hn]
    rcases confirmInTx_spec e.store a with hx | ⟨-,hx⟩
    · rw [settleConfirmation,hx] at hr
      cases hr
    · have hs : (confirmInTx e.store a).2 = s := congrArg Prod.snd hr
      rw [hs] at hx
      obtain ⟨r,hrm,hid,hin⟩ := hx.found
      have hchain : r.chainId = c := (congrArg Slot.chainId (hk.names r hrm hid).slot).trans hk.1
      have hfollows := h.follows
      rw [hq] at hfollows
      have hblock : r.block = found.stored :=
        hfollows.1 _ (mem_storePlaces.mpr ⟨r,hrm,hchain,hin,rfl⟩) hid
      have hrow : confirmRow a r ∈ s.txAttempts.rows := by
        rw [hx.attempts]
        exact List.mem_map_of_mem hrm
      have hsame := confirmRow_same a r
      have hattempt : ∀ b, b ∈ s.attemptBlocks a ↔ b = found.stored := by
        intro b
        simp only [Store.attemptBlocks,List.mem_map,List.mem_filter,decide_eq_true_eq]
        constructor
        · rintro ⟨r',⟨hr',hid'⟩,rfl⟩
          rw [id_unique hr' hrow (hid'.trans (hsame.id.trans hid).symm),confirmRow_block,hblock]
        · rintro rfl
          exact ⟨_,⟨hrow,hsame.id.trans hid⟩,by rw [confirmRow_block,hblock]⟩
      have hjobs : ∀ b ∈ s.jobBlocks a, b = found.stored := by
        intro b hb
        simp only [Store.jobBlocks,List.mem_map,List.mem_filter,decide_eq_true_eq] at hb
        obtain ⟨j,⟨hj,hpa,ho⟩,rfl⟩ := hb
        have hof := hk.names r hrm hid
        have hm : (confirmRow a r).mined := .inr (by rw [confirmRow_status,if_pos ⟨hid,hin⟩])
        have hjid : (confirmRow a r).jobId = some j.id :=
          hsame.jobId.trans (hof.jobId_eq_some.mpr ho)
        have hpurpose : (confirmRow a r).purpose = .job :=
          hsame.purpose.trans (hof.purpose.trans hpa)
        rw [hp _ hrow j hj hjid hpurpose hm (hsame.chainId.trans hchain),confirmRow_block,hblock]
      refine ⟨?_,?_⟩
      · exact List.ne_nil_of_mem (List.mem_append_left _ ((hattempt _).mpr rfl))
      · intro b hb
        rcases List.mem_append.mp hb with hb | hb
        · exact (hattempt b).mp hb
        · exact hjobs b hb

/-- What a step writes down about confirmations. -/
theorem Ordered.log (h : Ordered c e) (hh : Held c e) (hs : Engine.Step chain c e ev e')
    (hp : MinedPairs (SameBlock c) e'.store) (hl : ∀ n ∈ e.log, n.Canonical) :
    ∀ n ∈ e'.log, n.Canonical := by
  intro n hn
  rcases hs.log with ⟨op,rest,st,hq,hr,hlog⟩ | ⟨-,new,hlog,hnew⟩
  · rw [hlog] at hn
    rcases List.mem_append.mp hn with hn | hn
    swap
    · exact hl n hn
    cases op with
    | inclusion a inc now =>
      cases st with
      | applied =>
        rw [List.mem_singleton.mp hn]
        trivial
      | noop => cases hn
    | confirmation a found => exact h.confirmation_canonical hh hq (Except.ok.inj hr) hp n hn
    | flush w => cases hn
  · rw [hlog] at hn
    rcases List.mem_append.mp hn with hn | hn
    · have haside := hnew n hn
      cases n <;> trivial
    · exact hl n hn

end Steps

theorem Ordered.init {c : ChainId} : Ordered c Engine.init := by
  refine ⟨trivial,trivial,?_,?_⟩
  · intro _ hm
    cases hm
  · intro m hm
    cases hm

/-- The state that the verifier, the settler and recovery keep together. -/
structure Canonical (c : ChainId) (e : Engine) : Prop where
  held : Held c e
  agrees : e.Agrees false c
  ordered : Ordered c e
  consistent : Consistent e.store
  blocks : MinedPairs (SameBlock c) e.store
  log : ∀ n ∈ e.log, n.Canonical

theorem Canonical.step {chain : ChainCtx} {c : ChainId} {e e' : Engine} {ev : Engine.Event}
    (h : Canonical c e) (hs : Engine.Step chain c e ev e') (hd : chain.confirmCheck ≠ .immediate)
    (hun : ev.Unambiguous false chain c e) (hcond : ev.Sound chain e) : Canonical c e' := by
  have hblocks := h.blocks.engineStep h.consistent h.held hs hcond
  exact {
    held := h.held.step hs
    agrees := h.agrees.step h.held hs hun
    ordered := h.ordered.step h.agrees hs hd hcond
    consistent := h.consistent.engineStep h.held hs
    blocks := hblocks
    log := h.ordered.log h.held hs hblocks h.log }

/-- As long as everything that has an attempt in a block has it in the same one, the checks
see it nowhere else, and moves are written for the attempt with which the job is included,
a job is confirmed in the block in which it was found. -/
theorem confirmed_in_found_block {chain : ChainCtx} {c : ChainId} {e : Engine}
    (hd : chain.confirmCheck ≠ .immediate)
    (h : ((confirmation chain c).restrict
      fun e ev => ev.Unambiguous false chain c e ∧ ev.Sound chain e).Reaches Engine.init e) :
    ∀ n ∈ e.log, n.Canonical := by
  have hall : Canonical c e := by
    refine h.invariant ?_ ?_
    · exact ⟨.init,fun q x hx => (by cases hx),.init,.empty,fun r hr => (by cases hr),
        fun n hn => (by cases hn)⟩
    · rintro e ev hi ⟨hp,hun,hcond⟩
      exact hi.step (.of_possible hp) hd hun hcond
  exact hall.log

namespace Sample

/-- A chain whose node serves blocks under provisional hashes. -/
def membership : ChainCtx := { ethereum with adapterCheck := .txMembership 1 }

/-- Block 10 holds the transaction. -/
def tenth : View := ⟨fun n => if n = 10 then some ⟨10,100,[3]⟩ else some ⟨n,99,[]⟩,none⟩

/-- The transaction has moved to the next block. -/
def eleventh : View := ⟨fun n => if n = 11 then some ⟨11,101,[3]⟩ else some ⟨n,99,[]⟩,none⟩

def confirmedIn (view : View) : List Engine.Event :=
  included ++ [.check 0 view,.write .answered true]

end Sample

theorem confirmed_in_found_block_tenth :
    Sample.membership.confirmCheck ≠ .immediate ∧
      ∃ e, ((confirmation Sample.membership 1).restrict fun e ev =>
          ev.Unambiguous false Sample.membership 1 e ∧ ev.Sound Sample.membership e).Reaches
          Engine.init e ∧
        .confirmed (Sample.attempt 3 0 .job (.job 1)) ⟨10,100⟩ [(some 10,some 100),(some 10,some 100)] ∈
          e.log ∧ ∀ n ∈ e.log, n.Canonical := by
  have hd : Sample.membership.confirmCheck ≠ .immediate := by decide
  have hrun : ((confirmation Sample.membership 1).restrict fun e ev =>
      ev.Unambiguous false Sample.membership 1 e ∧ ev.Sound Sample.membership e).Runs Engine.init
      (Sample.confirmedIn Sample.tenth) := by decide +kernel
  exact ⟨hd,_,hrun.reaches,by decide +kernel,confirmed_in_found_block hd hrun.reaches⟩

/-- Found in block 11 by a window of one block, the job is confirmed in block 10. -/
theorem confirmed_in_other_block :
    Sample.membership.confirmCheck ≠ .immediate ∧
      ∃ e, (confirmation Sample.membership 1).Reaches Engine.init e ∧
        ¬ ∀ n ∈ e.log, n.Canonical := by
  have hrun : (confirmation Sample.membership 1).Runs Engine.init
      (Sample.confirmedIn Sample.eleventh) := by decide +kernel
  refine ⟨by decide,_,hrun.reaches,?_⟩
  intro hall
  have hn : .confirmed (Sample.attempt 3 0 .job (.job 1)) ⟨11,101⟩
      [(some 10,some 100),(some 10,some 100)] ∈
      ((Sample.confirmedIn Sample.eleventh).foldl (confirmation Sample.membership 1).step
        Engine.init).log := by decide +kernel
  have hbad := (hall _ hn).2 (some 10,some 100) List.mem_cons_self
  simp [BlockRef.stored] at hbad

end GumEngine
