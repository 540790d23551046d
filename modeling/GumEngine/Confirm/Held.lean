import GumEngine.Confirm.Steps
import GumEngine.Pipeline.Moves

/-!
# Rows under a step, and the attempts in memory

Of the rows of the chain only those that are `included` matter here, and in which block. A
settlement or a block move puts one attempt into one block; every other transaction leaves
the included attempts where they are. The attempts the tasks hold are all stored.
-/

namespace GumEngine
open Relational Transition

/-- An attempt and a block it is said to be in. -/
abbrev Place := Uuid × StoredBlock

/-- What becomes of the rows of chain `c`: none is lost, and the included ones were included
in the same block before, or are in `new`. -/
structure RowStep (c : ChainId) (new : List Place) (s s' : Store) : Prop where
  origin : ∀ r' ∈ s'.txAttempts.rows,
    (∃ r ∈ s.txAttempts.rows, r'.Same r) ∨ ∃ a, r'.Same (.ofAttempt a)
  keeps : ∀ r' ∈ s'.txAttempts.rows, r'.chainId = c → r'.status = .included →
    ∃ r ∈ s.txAttempts.rows, r'.Same r ∧
      (r.status = .included ∧ r.block = r'.block ∨ (r'.id,r'.block) ∈ new)
  grows : ∀ r ∈ s.txAttempts.rows, ∃ r' ∈ s'.txAttempts.rows, r'.Same r

section Rows

variable {c : ChainId} {s m s' : Store} {a : Attempt} {new : List Place}

theorem RowStep.of_map {F : AttemptRow → AttemptRow} (hF : ∀ r, (F r).Same r)
    (hst : ∀ r, (F r).status = .included →
      r.status = .included ∧ r.block = (F r).block ∨ (r.id,(F r).block) ∈ new)
    (h : s'.txAttempts.rows = s.txAttempts.rows.map F) : RowStep c new s s' := by
  refine ⟨?_,?_,?_⟩
  · intro r' hr'
    rw [h] at hr'
    obtain ⟨r,hr,rfl⟩ := List.mem_map.mp hr'
    exact .inl ⟨r,hr,hF r⟩
  · intro r' hr' _ hin
    rw [h] at hr'
    obtain ⟨r,hr,rfl⟩ := List.mem_map.mp hr'
    refine ⟨r,hr,hF r,?_⟩
    rw [(hF r).id]
    exact hst r hin
  · intro r hr
    exact ⟨F r,by rw [h]; exact List.mem_map_of_mem hr,hF r⟩

theorem RowStep.of_eq (h : s'.txAttempts.rows = s.txAttempts.rows) : RowStep c new s s' :=
  .of_map (F := fun r => r) .rfl' (fun _ hin => .inl ⟨hin,rfl⟩) (by rw [h,List.map_id'])

theorem RowStep.refl : RowStep c [] s s := .of_eq rfl

theorem RowStep.trans (h : RowStep c new s m) (h' : RowStep c [] m s') : RowStep c new s s' := by
  refine ⟨?_,?_,?_⟩
  · intro r' hr'
    rcases h'.origin r' hr' with ⟨q,hq,hsame⟩ | hnew
    · rcases h.origin q hq with ⟨r,hr,hsame'⟩ | ⟨a,hsame'⟩
      · exact .inl ⟨r,hr,hsame.trans hsame'⟩
      · exact .inr ⟨a,hsame.trans hsame'⟩
    · exact .inr hnew
  · intro r' hr' hc hin
    obtain ⟨q,hq,hsame,hst⟩ := h'.keeps r' hr' hc hin
    obtain ⟨hqin,hblock⟩ := hst.resolve_right List.not_mem_nil
    obtain ⟨r,hr,hsame',hst'⟩ := h.keeps q hq (hsame.chainId ▸ hc) hqin
    refine ⟨r,hr,hsame.trans hsame',?_⟩
    rwa [hsame.id,← hblock]
  · intro r hr
    obtain ⟨q,hq,hsame⟩ := h.grows r hr
    obtain ⟨r',hr',hsame'⟩ := h'.grows q hq
    exact ⟨r',hr',hsame'.trans hsame⟩

theorem RowStep.confirm (s : Store) (a : Attempt) : RowStep c new s (confirmInTx s a).2 := by
  rcases confirmInTx_spec s a with h | ⟨-,h⟩
  · rw [h]
    exact .of_eq rfl
  · refine .of_map (confirmRow_same a) ?_ h.attempts
    intro r hin
    rw [confirmRow_status] at hin
    split at hin
    · cases hin
    · refine .inl ⟨hin,?_⟩
      simp only [AttemptRow.block,confirmRow,rewrite]
      split <;> split <;> rfl

theorem RowStep.settle {inc : Inclusion} {confirmNow : Bool} {st : Settled}
    (h : settleInclusion s a inc confirmNow false = .ok (st,s')) :
    RowStep c [(a.id,inc.stored)] s s' := by
  rcases settleInclusion_spec h with ⟨-,rfl⟩ | ⟨-,m,hm,rfl⟩
  · exact .of_eq rfl
  · have hset : RowStep c [(a.id,inc.stored)] s m := by
      refine .of_map (settleRow_same a inc) ?_ hm.attempts
      intro r hin
      by_cases hb : r.status = .broadcast
      · -- only the row of `a` is included by this write
        rw [settleRow_status,if_pos hb] at hin
        by_cases hid : r.id = a.id
        · right
          rw [hid]
          refine List.mem_singleton.mpr (congrArg (Prod.mk a.id) ?_)
          simp [AttemptRow.block,settleRow,rewrite,AttemptRow.whereIn,AttemptRow.whereSibling,
            AttemptRow.toIncluded,Inclusion.stored,Inclusion.block,BlockRef.stored,hid,hb]
        · rw [if_neg hid] at hin
          split at hin <;> cases hin
      · rw [settleRow_status,if_neg hb] at hin
        left
        refine ⟨hin,?_⟩
        simp [AttemptRow.block,settleRow,rewrite,AttemptRow.whereIn,AttemptRow.whereSibling,hin]
    split
    · exact hset.trans (.confirm m a)
    · exact hset

theorem RowStep.update (s : Store) (a : Attempt) (number : Nat) (hash : B256) (receipt : Receipt) :
    RowStep c [(a.id,(some number,some hash))] s (updateInclusionBlock s a number hash receipt) := by
  refine .of_map (moveRow_same a number hash) ?_
    (updateInclusionBlock_spec s a number hash receipt).attempts
  intro r hin
  rw [moveRow_status] at hin
  by_cases hid : r.id = a.id
  · right
    rw [hid]
    refine List.mem_singleton.mpr (congrArg (Prod.mk a.id) ?_)
    simp [AttemptRow.block,moveRow,rewrite,AttemptRow.whereIn,hid,hin]
  · left
    refine ⟨hin,?_⟩
    simp [AttemptRow.block,moveRow,rewrite,AttemptRow.whereIn,hid]

theorem RowStep.demote (s : Store) (a : Attempt) :
    RowStep c new s (GumEngine.demoteInclusion s a).2 := by
  rcases demoteInclusion_spec s a with h | ⟨-,h⟩
  · rw [h]
    exact .of_eq rfl
  · refine .of_map (demoteRow_same a) ?_ h.attempts
    intro r hin
    rw [demoteRow_status] at hin
    split at hin
    · cases hin
    · next hno =>
      refine .inl ⟨hin,?_⟩
      have hne : r.id ≠ a.id := fun hid => hno ⟨hid,hin⟩
      simp [AttemptRow.block,demoteRow,rewrite,AttemptRow.whereIn,hne]

theorem RowStep.bind {epoch : Int} {kind : BindKind}
    (h : bindAttempt s epoch a kind = .ok s') : RowStep c new s s' := by
  have hrows := (bindAttempt_spec h).attempts
  refine ⟨?_,?_,?_⟩
  · intro r' hr'
    rw [hrows] at hr'
    rcases List.mem_append.mp hr' with hr | hr
    · exact .inl ⟨r',hr,.rfl' r'⟩
    · rw [List.mem_singleton.mp hr]
      exact .inr ⟨a,.rfl' _⟩
  · intro r' hr' _ hin
    rw [hrows] at hr'
    rcases List.mem_append.mp hr' with hr | hr
    · exact ⟨r',hr,.rfl' r',.inl ⟨hin,rfl⟩⟩
    · rw [List.mem_singleton.mp hr] at hin
      cases hin
  · intro r hr
    exact ⟨r,by rw [hrows]; exact List.mem_append_left _ hr,.rfl' r⟩

theorem RowStep.void {epoch : Int} {mode : VoidMode} {disposition : VoidDisposition} {now : Nat}
    (h : voidBinding s epoch a mode disposition now = .ok s') : RowStep c new s s' := by
  refine .of_map (dropRow_same a.slot) ?_ (voidBinding_spec h).attempts
  intro r hin
  rw [dropRow_status] at hin
  split at hin
  · cases hin
  · refine .inl ⟨hin,?_⟩
    simp [AttemptRow.block,dropRow,rewrite,AttemptRow.whereSlot,hin]

/-- A settlement on another chain. -/
theorem RowStep.elsewhere {b : StoredBlock} (h : RowStep c [(a.id,b)] s s') (hn : a.Names s)
    (hc : a.chainId ≠ c) : RowStep c [] s s' := by
  refine ⟨h.origin,?_,h.grows⟩
  intro r' hr' hrc hin
  obtain ⟨r,hr,hsame,hst | hst⟩ := h.keeps r' hr' hrc hin
  · exact ⟨r,hr,hsame,.inl hst⟩
  · have hid : r.id = a.id := by
      rw [← hsame.id]
      exact congrArg Prod.fst (List.mem_singleton.mp hst)
    have hchain : r.chainId = a.chainId := congrArg Slot.chainId (hn r hr hid).slot
    exact absurd (hchain.symm.trans (hsame.chainId.symm.trans hrc)) hc

theorem RowStep.op {o : Op} (hi : o.Issued s) (he : o.Elsewhere c s) :
    RowStep c [] s (o.apply s) := by
  have hself : RowStep c [] s s := .of_eq rfl
  cases o with
  | insertJob id request =>
    exact Store.commit_cases hself fun s' h => .of_eq (congrArg _ (insertJob_spec h).1.attempts)
  | createTopup id chainId treasury signer amount =>
    exact Store.commit_cases hself fun s' h => .of_eq (congrArg _ (createTopup_spec h).1.attempts)
  | bindAttempt epoch a kind => exact Store.commit_cases hself fun s' h => .bind h
  | settleInclusion a inc confirmNow =>
    exact Store.commit_map_cases hself fun st s' h => (RowStep.settle h).elsewhere hi he.1
  | settleConfirmation a => exact .confirm s a
  | updateInclusionBlock a number hash receipt =>
    exact (RowStep.update s a number hash receipt).elsewhere hi he.1
  | demoteInclusion a => exact .demote s a
  | voidBinding epoch a mode disposition now => exact Store.commit_cases hself fun s' h => .void h
  | failJob id allowed failure message revertData =>
    exact .of_eq (congrArg _ (failJob_only s _ _ _ _ _).attempts)
  | requeueFront id now =>
    exact Store.commit_map_cases hself fun n s' h =>
      .of_eq (congrArg _ (requeueFront_spec h).1.attempts)
  | cancelQueued id => exact .of_eq (congrArg _ (failJob_only s _ _ _ _ _).attempts)
  | acquire => exact .of_eq rfl

end Rows

/-! ## The attempts in memory -/

/-- An attempt of chain `c` that is stored. -/
def Attempt.KnownIn (c : ChainId) (s : Store) (a : Attempt) : Prop :=
  a.chainId = c ∧ ∃ r ∈ s.txAttempts.rows, r.id = a.id ∧ r.IsOf a

@[simp] def Worker.attempts : Worker → List Attempt
  | idle | picked | flushing | loading => []
  | driving attempts todo => attempts ++ (todo.getD []).flatten
  | settling a _ todo => a :: (todo.getD []).flatten
  | recovering todo => todo.flatten
  | demoting a group todo => a :: group ++ todo.flatten

def SettleOp.attempts : SettleOp → List Attempt
  | inclusion a _ _ | confirmation a _ => [a]
  | flush _ => []

/-- The attempts in the queue and with the verifier. -/
def Engine.shared (e : Engine) : List Attempt :=
  e.queue.flatMap SettleOp.attempts ++ (e.pending.map PendingConfirmation.attempt ++
    e.missing.toList.map fun m => m.item.attempt)

/-- Whatever a task holds is stored, and a worker only holds what its pair signed. -/
structure Held (c : ChainId) (e : Engine) : Prop where
  owned : ∀ r ∈ e.store.txAttempts.rows, ∃ o : SlotOwner, r.jobId = o.jobId ∧ r.topupId = o.topupId
  shared : ∀ a ∈ e.shared, a.KnownIn c e.store
  workers : ∀ p, ∀ a ∈ (e.workers p).attempts, a.KnownIn c e.store ∧ a.signer = p

section Known

variable {chain : ChainCtx} {c : ChainId} {s s' : Store} {a : Attempt} {new : List Place}
  {e e' : Engine} {ev : Engine.Event}

theorem mem_shared : a ∈ e.shared ↔ (∃ op ∈ e.queue, a ∈ op.attempts) ∨
    (∃ item ∈ e.pending, item.attempt = a) ∨ ∃ m, e.missing = some m ∧ m.item.attempt = a := by
  simp only [Engine.shared,List.mem_append,List.mem_flatMap,List.mem_map,Option.mem_toList]

theorem Attempt.KnownIn.step (h : a.KnownIn c s) (hr : RowStep c new s s') : a.KnownIn c s' := by
  obtain ⟨hc,r,hm,hid,hof⟩ := h
  obtain ⟨r',hm',hsame⟩ := hr.grows r hm
  exact ⟨hc,r',hm',hsame.id.trans hid,hsame.isOf hof⟩

theorem Attempt.KnownIn.names (h : a.KnownIn c s) : a.Names s := by
  obtain ⟨-,r,hm,hid,hof⟩ := h
  intro r' hm' hid'
  rw [id_unique hm' hm (hid'.trans hid.symm)]
  exact hof

theorem Attempt.KnownIn.signer {b : Attempt} (h : a.KnownIn c s) (h' : b.KnownIn c s)
    (hid : a.id = b.id) : a.signer = b.signer := by
  obtain ⟨-,r,hm,hr,hof⟩ := h
  have hof' := h'.names r hm (hr.trans hid)
  exact congrArg Slot.signer (hof.slot.symm.trans hof'.slot)

/-- What is loaded is known. -/
theorem Held.loaded (h : Held c e) {p : Address} {live : List Attempt}
    (hl : loadLiveAttemptsFor e.store c p = .ok live) (ha : a ∈ live) :
    a.KnownIn c e.store ∧ a.signer = p := by
  obtain ⟨r,hr,hrow⟩ := (mem_mapM hl).2 a ha
  obtain ⟨hm,hc,hp,-⟩ := mem_liveRows.mp hr
  obtain ⟨o,hj,ht⟩ := h.owned r hm
  obtain ⟨howner,hid,hhash,-⟩ := attemptRow_ok hrow
  have hslot := attemptRow_slot hrow
  have ho : a.owner = o := by
    have : r.owner = some o := by
      unfold AttemptRow.owner
      rw [hj,ht]
      cases o <;> rfl
    exact Option.some.inj (howner.symm.trans this)
  have hpurpose := (attemptRow_terms hrow).1
  refine ⟨⟨(congrArg Slot.chainId hslot).trans hc,r,hm,hid.symm,hslot.symm,hpurpose.symm,?_,?_,
    hhash.symm⟩,(congrArg Slot.signer hslot).trans hp⟩
  · rw [hj,ho]
  · rw [ht,ho]

/-- Nothing is held that was not held before, stored now, or signed by the pair. -/
theorem Held.of (h : Held c e) (hr : RowStep c new e.store e'.store)
    (hs : ∀ a ∈ e'.shared, a ∈ e.shared ∨ ∃ p, a ∈ (e.workers p).attempts)
    (hw : ∀ p, ∀ a ∈ (e'.workers p).attempts, a ∈ (e.workers p).attempts ∨
      a.KnownIn c e'.store ∧ a.signer = p) : Held c e' := by
  refine ⟨?_,?_,?_⟩
  · intro r' hr'
    rcases hr.origin r' hr' with ⟨r,hm,hsame⟩ | ⟨a,hsame⟩
    · obtain ⟨o,hj,ht⟩ := h.owned r hm
      exact ⟨o,hsame.jobId.trans hj,hsame.topupId.trans ht⟩
    · exact ⟨a.owner,hsame.jobId,hsame.topupId⟩
  · intro a ha
    rcases hs a ha with ha | ⟨p,ha⟩
    · exact (h.shared a ha).step hr
    · exact (h.workers p a ha).1.step hr
  · intro p a ha
    rcases hw p a ha with ha | ha
    · exact ⟨(h.workers p a ha).1.step hr,(h.workers p a ha).2⟩
    · exact ha

/-- One worker moves, and takes along what it held. -/
theorem Held.move (h : Held c e) {p : Address} {w : Worker}
    (hr : RowStep c new e.store e'.store) (he : e'.workers = Function.update e.workers p w)
    (hs : ∀ a ∈ e'.shared, a ∈ e.shared ∨ a ∈ (e.workers p).attempts)
    (hw : ∀ a ∈ w.attempts, a ∈ (e.workers p).attempts ∨ a.KnownIn c e'.store ∧ a.signer = p) :
    Held c e' := by
  refine h.of hr (fun a ha => (hs a ha).imp_right fun hx => ⟨p,hx⟩) ?_
  intro q a ha
  rw [he] at ha
  by_cases hq : q = p
  · subst hq
    rw [Function.update_self] at ha
    exact hw a ha
  · rw [Function.update_of_ne hq] at ha
    exact .inl ha

/-- The workers stay where they are. -/
theorem Held.stay (h : Held c e) (hr : RowStep c new e.store e'.store)
    (he : e'.workers = e.workers) (hs : ∀ a ∈ e'.shared, a ∈ e.shared) : Held c e' := by
  refine h.of hr (fun a ha => .inl (hs a ha)) ?_
  intro q a ha
  rw [he] at ha
  exact .inl ha

/-- Where a write of the queue puts its attempt. -/
def SettleOp.places : SettleOp → List Place
  | inclusion a inc _ => [(a.id,inc.stored)]
  | _ => []

theorem SettleOp.rowStep {op : SettleOp} {st : Settled} (h : op.run s = .ok (st,s')) :
    RowStep c op.places s s' := by
  cases op with
  | inclusion a inc confirmNow => exact .settle h
  | confirmation a found =>
    have hs : (confirmInTx s a).2 = s' := congrArg Prod.snd (Except.ok.inj h)
    rw [← hs]
    exact .confirm s a
  | flush w =>
    cases h
    exact .of_eq rfl

theorem Engine.Called.rowStep {b : Bool} {s' : Store} (h : Engine.Called e s' b s)
    (hr : RowStep c new e.store s') : RowStep c new e.store s := by
  cases h with
  | done => exact hr
  | refused => exact .of_eq rfl

theorem Engine.next_attempts {todo : Option (List (List Attempt))} :
    (Engine.next todo).attempts = (todo.getD []).flatten := by
  cases todo <;> rfl

/-- With nothing to send again recovery goes on with the nonces that are left. -/
theorem Engine.resending_cases (group : List Attempt) (todo : List (List Attempt)) :
    Engine.resending group todo = .recovering todo ∨
      Engine.resending group todo = .driving (Engine.toResend group) (some todo) := by
  unfold Engine.resending
  split
  · exact .inl rfl
  · exact .inr rfl

theorem Engine.resending_attempts {group : List Attempt} {todo : List (List Attempt)}
    (h : a ∈ (Engine.resending group todo).attempts) :
    a ∈ todo.flatten ∨ ∃ b ∈ group, a = { b with status := .broadcast } := by
  rcases Engine.resending_cases group todo with heq | heq
  · rw [heq] at h
    exact .inl h
  · rw [heq] at h
    rcases List.mem_append.mp h with h | h
    · obtain ⟨b,hb,rfl⟩ := List.mem_map.mp h
      exact .inr ⟨b,(List.mem_filter.mp hb).1,rfl⟩
    · exact .inl h

/-- A copy with another status. -/
theorem Attempt.KnownIn.restatus (h : a.KnownIn c s) (st : AttemptStatus) :
    ({ a with status := st } : Attempt).KnownIn c s := by
  obtain ⟨hc,r,hm,hid,hof⟩ := h
  exact ⟨hc,r,hm,hid,hof.slot,hof.purpose,hof.jobId,hof.topupId,hof.txHash⟩

/-- What recovery sends again is known. -/
theorem Held.resend (h : Held c e) {p : Address} {group : List Attempt}
    {todo : List (List Attempt)} (hr : RowStep c new e.store s)
    (hg : ∀ b ∈ group, b ∈ (e.workers p).attempts)
    (ht : ∀ b ∈ todo.flatten, b ∈ (e.workers p).attempts)
    (ha : a ∈ (Engine.resending group todo).attempts) :
    a ∈ (e.workers p).attempts ∨ a.KnownIn c s ∧ a.signer = p := by
  rcases Engine.resending_attempts ha with ha | ⟨b,hb,rfl⟩
  · exact .inl (ht a ha)
  · obtain ⟨hk,hp⟩ := h.workers p b (hg b hb)
    exact .inr ⟨(hk.restatus .broadcast).step hr,hp⟩

theorem mem_shared_of_eraseIdx {i : Nat} {item : PendingConfirmation}
    (hi : item ∈ e.pending.eraseIdx i) : item.attempt ∈ e.shared :=
  List.mem_append_right _ (List.mem_append_left _
    (List.mem_map_of_mem (List.mem_of_mem_eraseIdx hi)))

theorem mem_shared_of_getElem {i : Nat} {item : PendingConfirmation}
    (hi : e.pending[i]? = some item) : item.attempt ∈ e.shared :=
  List.mem_append_right _ (List.mem_append_left _
    (List.mem_map_of_mem (List.mem_of_getElem? hi)))

theorem mem_shared_of_missing {m : OnMissing} (hm : e.missing = some m) :
    m.item.attempt ∈ e.shared :=
  mem_shared.mpr (.inr (.inr ⟨m,hm,rfl⟩))

/-- A write that is queued brings its attempts. -/
theorem mem_shared_push {op : SettleOp} (h : a ∈ (e.push op).shared) :
    a ∈ e.shared ∨ a ∈ op.attempts := by
  rw [mem_shared] at h
  obtain ⟨o,ho,ha⟩ | ha := h
  · obtain ho | ho := List.mem_append.mp ho
    · exact .inl (mem_shared.mpr (.inl ⟨o,ho,ha⟩))
    · rw [List.mem_singleton.mp ho] at ha
      exact .inr ha
  · exact .inl (mem_shared.mpr (.inr ha))

/-- An item that is handed to the verifier brings its attempt. -/
theorem mem_shared_submit {item : PendingConfirmation} (h : a ∈ (e.submit item).shared) :
    a ∈ e.shared ∨ a = item.attempt := by
  rw [mem_shared] at h
  obtain ha | ⟨x,hx,rfl⟩ | ha := h
  · exact .inl (mem_shared.mpr (.inl ha))
  · obtain hx | hx := List.mem_append.mp hx
    · exact .inl (mem_shared.mpr (.inr (.inl ⟨x,hx,rfl⟩)))
    · rw [List.mem_singleton.mp hx]
      exact .inr rfl
  · exact .inl (mem_shared.mpr (.inr (.inr ha)))

/-- Nothing is held that was not, when `on_missing` lets go of its item. -/
theorem mem_shared_of_free {e' : Engine} (h : a ∈ e'.shared) (hq : e'.queue = e.queue)
    (hp : e'.pending = e.pending) (hm : e'.missing = none) : a ∈ e.shared := by
  rw [mem_shared,hq,hp,hm] at h
  obtain ha | ha | ⟨m,hm,-⟩ := h
  · exact mem_shared.mpr (.inl ha)
  · exact mem_shared.mpr (.inr (.inl ha))
  · cases hm

/-- Nothing is held that was not, when an item is taken out. -/
theorem mem_shared_of_erased {i : Nat} (h : a ∈ { e with pending := e.pending.eraseIdx i }.shared) :
    a ∈ e.shared := by
  rw [mem_shared] at h
  obtain ha | ⟨x,hx,rfl⟩ | hm := h
  · exact mem_shared.mpr (.inl ha)
  · exact mem_shared_of_eraseIdx hx
  · exact mem_shared.mpr (.inr (.inr hm))

/-! ## One lemma for each step -/

theorem Held.flushed (h : Held c e) {w : Waiter} {rest : List SettleOp}
    (hq : e.queue = .flush w :: rest) :
    Held c ({ e with queue := rest, written := false }.signal w) := by
  have hpop : ∀ a : Attempt, (∃ op ∈ rest, a ∈ op.attempts) → ∃ op ∈ e.queue, a ∈ op.attempts := by
    rintro a ⟨op,hop,ha⟩
    exact ⟨op,by rw [hq]; exact List.mem_cons_of_mem _ hop,ha⟩
  cases w with
  | verifier =>
    refine h.stay .refl rfl ?_
    intro a ha
    rw [mem_shared] at ha ⊢
    refine ha.imp (hpop a) (Or.imp_right ?_)
    rintro ⟨m,hm,rfl⟩
    obtain ⟨m',hm',rfl⟩ := Option.map_eq_some_iff.mp hm
    exact ⟨m',hm',by cases m' <;> rfl⟩
  | recovery p =>
    simp only [Engine.signal]
    split
    · refine h.move (p := p) .refl rfl ?_ (by simp)
      intro a ha
      rw [mem_shared] at ha ⊢
      exact .inl (ha.imp_left (hpop a))
    · refine h.stay .refl rfl ?_
      intro a ha
      rw [mem_shared] at ha ⊢
      exact ha.imp_left (hpop a)

theorem Held.wrote (h : Held c e) {op : SettleOp} {rest queue : List SettleOp} {written : Bool}
    {st : Settled} {s : Store} (hq : e.queue = op :: rest) (hr : op.run e.store = .ok (st,s))
    (hp : Engine.Popped e rest queue written) :
    Held c { e with
      store := s
      queue := queue
      written := written
      log := op.notes s st ++ e.log } := by
  refine h.stay (SettleOp.rowStep hr) rfl ?_
  intro a ha
  rw [mem_shared] at ha ⊢
  refine ha.imp_left ?_
  rintro ⟨op,hop,hin⟩
  cases hp with
  | stays => exact ⟨op,hop,hin⟩
  | gone => exact ⟨op,by rw [hq]; exact List.mem_cons_of_mem _ hop,hin⟩

theorem Held.parked (h : Held c e) {op : SettleOp} {rest : List SettleOp} {parks : Bool}
    (hq : e.queue = op :: rest) :
    Held c { e with
      queue := rest
      written := false
      deadLetters := if parks then op :: e.deadLetters else e.deadLetters } := by
  refine h.stay .refl rfl ?_
  intro a ha
  rw [mem_shared] at ha ⊢
  refine ha.imp_left ?_
  rintro ⟨op,hop,ha⟩
  exact ⟨op,by rw [hq]; exact List.mem_cons_of_mem _ hop,ha⟩

theorem Held.confirmed (h : Held c e) {i : Nat} {item : PendingConfirmation} {found : BlockRef}
    (hi : e.pending[i]? = some item) :
    Held c (({ e with pending := e.pending.eraseIdx i }.push
      (.confirmation item.attempt found)).account .confirmed item.attempt) := by
  refine h.stay .refl rfl ?_
  intro a ha
  obtain ha | ha := mem_shared_push ha
  · exact mem_shared_of_erased ha
  · rw [List.mem_singleton.mp ha]
    exact mem_shared_of_getElem hi

theorem Held.kept (h : Held c e) {i : Nat} {item : PendingConfirmation} (misses : Nat)
    (hi : e.pending[i]? = some item) :
    Held c ({ e with pending := e.pending.eraseIdx i }.submit { item with misses := misses }) := by
  refine h.stay .refl rfl ?_
  have hshared := mem_shared_of_getElem hi
  intro a ha
  obtain ha | rfl := mem_shared_submit ha
  · exact mem_shared_of_erased ha
  · exact hshared

theorem Held.asked (h : Held c e) {i : Nat} {item : PendingConfirmation} (misses : Nat)
    (hi : e.pending[i]? = some item) :
    Held c { e with
      pending := e.pending.eraseIdx i
      missing := some (.asking { item with misses := misses }) } := by
  refine h.stay .refl rfl ?_
  have hshared := mem_shared_of_getElem hi
  intro a ha
  rw [mem_shared] at ha
  rcases ha with ha | ⟨x,hx,rfl⟩ | ⟨m,hm,rfl⟩
  · exact mem_shared.mpr (.inl ha)
  · exact mem_shared_of_eraseIdx hx
  · cases hm
    exact hshared

theorem Held.stayed (h : Held c e) {item : PendingConfirmation} (misses : Nat)
    (hm : e.missing = some (.asking item)) :
    Held c ({ e with missing := none }.submit { item with misses := misses }) := by
  refine h.stay .refl rfl ?_
  intro a ha
  obtain ha | rfl := mem_shared_submit ha
  · exact mem_shared_of_free ha rfl rfl rfl
  · exact mem_shared_of_missing hm

theorem Held.updated (h : Held c e) {item : PendingConfirmation} {call : Call} {s : Store}
    (hm : e.missing = some (.moved item true))
    (hs : Engine.Called e (updateInclusionBlock e.store item.attempt item.inclusion.blockNumber
      item.inclusion.blockHash item.inclusion.receipt) call.reaches s) :
    Held c ({ e with store := s, missing := none }.submit item) := by
  refine h.stay (hs.rowStep (.update _ _ _ _ _)) rfl ?_
  intro a ha
  obtain ha | rfl := mem_shared_submit ha
  · exact mem_shared_of_free ha rfl rfl rfl
  · exact mem_shared_of_missing hm

theorem Held.undone (h : Held c e) {item : PendingConfirmation} :
    Held c ({ e with
      store := (demoteInclusion e.store item.attempt).2
      missing := none
      log := e.undoing item ++ e.log }.setPair item.attempt.signer
      fun p => (p.pauseFor .reorg .reconcilingNonce).requestRecovery) := by
  refine h.stay (RowStep.demote _ _ : RowStep c [] _ _) rfl ?_
  intro a ha
  rw [mem_shared] at ha ⊢
  exact ha.imp_right (Or.imp_right fun ⟨m,hm,_⟩ => by cases hm)

theorem Held.notUndone (h : Held c e) {item : PendingConfirmation} {call : Call} {s : Store}
    (hm : e.missing = some (.vanished item true))
    (hs : Engine.Called e (demoteInclusion e.store item.attempt).2 call.reaches s) :
    Held c ({ e with
      store := s
      missing := none
      log := e.noted call item.attempt item.block ++ e.log }.submit item) := by
  refine h.stay (hs.rowStep (RowStep.demote _ _ : RowStep c [] _ _)) rfl ?_
  intro a ha
  obtain ha | rfl := mem_shared_submit ha
  · exact mem_shared_of_free ha rfl rfl rfl
  · exact mem_shared_of_missing hm

theorem Held.boundFirst (h : Held c e) {p : Address} {epoch : Int} {a : Attempt} {s : Store}
    (hc : a.chainId = c) (hs : a.signer = p) (hb : bindAttempt e.store epoch a .first = .ok s) :
    Held c ({ e with store := s }.setWorker p (.driving [a] none)) := by
  have hr : RowStep c [] e.store s := .bind hb
  refine h.move hr rfl (fun _ => .inl) ?_
  intro b hb'
  obtain rfl : b = a := by simpa using hb'
  have hrow := (bindAttempt_spec hb).attempts
  exact .inr ⟨⟨hc,_,by simp [hrow],rfl,AttemptRow.ofAttempt_isOf b⟩,hs⟩

theorem Held.boundMore (h : Held c e) {p : Address} {epoch : Int} {a : Attempt} {kind : BindKind}
    {s : Store} {attempts : List Attempt} {todo : Option (List (List Attempt))}
    (hw : e.workers p = .driving attempts todo) (hc : a.chainId = c) (hs : a.signer = p)
    (hb : bindAttempt e.store epoch a kind = .ok s) :
    Held c ({ e with store := s }.setWorker p (.driving (attempts ++ [a]) todo)) := by
  have hr : RowStep c [] e.store s := .bind hb
  refine h.move hr rfl (fun _ => .inl) ?_
  intro b hb'
  have hrow := (bindAttempt_spec hb).attempts
  simp only [Worker.attempts,List.append_assoc,List.mem_append,List.mem_singleton] at hb'
  rcases hb' with hb' | rfl | hb'
  · exact .inl (by rw [hw]; exact List.mem_append_left _ hb')
  · exact .inr ⟨⟨hc,_,by simp [hrow],rfl,AttemptRow.ofAttempt_isOf b⟩,hs⟩
  · exact .inl (by rw [hw]; exact List.mem_append_right _ hb')

theorem Held.settled (h : Held c e) {p : Address} {r : Receipt} {a : Attempt} {inc : Inclusion}
    {attempts : List Attempt} {todo : Option (List (List Attempt))}
    (hw : e.workers p = .driving attempts todo)
    (ha : attempts.find? (fun a => a.txHash = r.transactionHash) = some a) :
    Held c ((e.push (.inclusion a inc
      (chain.confirmCheck = .immediate))).setWorker p (.settling a inc todo)) := by
  have hin : a ∈ (e.workers p).attempts := by
    rw [hw]
    exact List.mem_append_left _ (List.mem_of_find?_eq_some ha)
  refine h.move (p := p) .refl rfl ?_ ?_
  · intro b hb
    obtain hb | hb := mem_shared_push hb
    · exact .inl hb
    · rw [List.mem_singleton.mp hb]
      exact .inr hin
  · intro b hb
    rcases List.mem_cons.mp hb with rfl | hb
    · exact .inl hin
    · exact .inl (by rw [hw]; exact List.mem_append_right _ hb)

theorem Held.handedOver (h : Held c e) {p : Address} {a : Attempt} {inc : Inclusion}
    {todo : Option (List (List Attempt))} (hw : e.workers p = .settling a inc todo) :
    Held c ((((if chain.confirmCheck = .immediate then e else e.submit ⟨a,inc,0⟩).setPair
      p fun q => (q.resumeIf .stuckUnresolved).resumeIf .insufficientFunds).account
      .mined a).setWorker p (Engine.next todo)) := by
  have hin : a ∈ (e.workers p).attempts := by
    rw [hw]
    exact List.mem_cons_self
  have hnext : ∀ b ∈ (Engine.next todo).attempts, b ∈ (e.workers p).attempts ∨
      b.KnownIn c e.store ∧ b.signer = p := by
    intro b hb
    rw [Engine.next_attempts] at hb
    exact .inl (by rw [hw]; exact List.mem_cons_of_mem _ hb)
  split
  · exact h.move (p := p) .refl rfl (fun _ => .inl) hnext
  · refine h.move (p := p) .refl rfl ?_ hnext
    intro b hb
    change b ∈ (e.submit ⟨a,inc,0⟩).shared at hb
    obtain hb | rfl := mem_shared_submit hb
    · exact .inl hb
    · exact .inr hin

theorem Held.voided (h : Held c e) {p : Address} {foreign : Bool} {attempts : List Attempt}
    {todo : Option (List (List Attempt))} (hw : e.workers p = .driving attempts todo) :
    Held c ((e.setPair p fun q =>
      if foreign then q.requestRecovery else q).setWorker p (Engine.next todo)) := by
  refine h.move (p := p) .refl rfl (fun _ => .inl) ?_
  intro b hb
  rw [Engine.next_attempts] at hb
  exact .inl (by rw [hw]; exact List.mem_append_right _ hb)

theorem Held.recovering (h : Held c e) {p : Address} :
    Held c (((e.setPair p Engine.pauseRecovering).push
      (.flush (.recovery p))).setWorker p .flushing) := by
  refine h.move (p := p) .refl rfl ?_ (by simp)
  intro b hb
  obtain hb | hb := mem_shared_push hb
  · exact .inl hb
  · cases hb

theorem Held.recovered (h : Held c e) {p : Address} {live : List Attempt}
    (hl : loadLiveAttemptsFor e.store c p = .ok live) :
    Held c (e.setWorker p (.recovering (byNonce live))) := by
  refine h.move (p := p) .refl rfl (fun _ => .inl) ?_
  intro b hb
  obtain ⟨g,hg,hb⟩ := List.mem_flatten.mp hb
  obtain ⟨n,hn⟩ := byNonce_mem hg
  exact .inr (h.loaded hl (hn b hb).1)

theorem Held.rebroadcast (h : Held c e) {p : Address} {group : List Attempt}
    {todo : List (List Attempt)} (hw : e.workers p = .recovering (group :: todo)) :
    Held c ((e.setPair p Engine.pauseResending).setWorker p
      (Engine.resending group todo)) := by
  refine h.move (p := p) .refl rfl (fun _ => .inl) ?_
  intro b hb
  refine h.resend .refl ?_ ?_ hb
  · intro x hx
    rw [hw]
    exact List.mem_append_left _ hx
  · intro x hx
    rw [hw]
    exact List.mem_append_right _ hx

theorem Held.gone (h : Held c e) {p : Address} {a : Attempt} {group : List Attempt}
    {todo : List (List Attempt)} (hw : e.workers p = .recovering (group :: todo))
    (ha : group.find? (fun a => a.status = .included) = some a) :
    Held c (e.setWorker p (.demoting a group todo)) := by
  refine h.move (p := p) .refl rfl (fun _ => .inl) ?_
  intro b hb
  rw [hw]
  refine .inl ?_
  rcases List.mem_append.mp hb with hb | hb
  · rcases List.mem_cons.mp hb with rfl | hb
    · exact List.mem_append_left _ (List.mem_of_find?_eq_some ha)
    · exact List.mem_append_left _ hb
  · exact List.mem_append_right _ hb

theorem Held.resubmitted (h : Held c e) {p : Address} {a : Attempt} {inc : Inclusion}
    {group : List Attempt} {todo : List (List Attempt)}
    (hw : e.workers p = .recovering (group :: todo))
    (ha : group.find? (fun a => a.status = .included) = some a) :
    Held c ((e.submit ⟨a,inc,0⟩).setWorker p (.recovering todo)) := by
  refine h.move (p := p) .refl rfl ?_ ?_
  · intro b hb
    change b ∈ (e.submit ⟨a,inc,0⟩).shared at hb
    obtain hb | rfl := mem_shared_submit hb
    · exact .inl hb
    · rw [hw]
      exact .inr (List.mem_append_left _ (List.mem_of_find?_eq_some ha))
  · intro b hb
    rw [hw]
    exact .inl (List.mem_append_right _ hb)

theorem Held.confirmedAtOnce (h : Held c e) {p : Address} {a : Attempt} {inc : Inclusion}
    {group : List Attempt} {todo : List (List Attempt)}
    (hw : e.workers p = .recovering (group :: todo))
    (ha : group.find? (fun a => a.status = .included) = some a) :
    Held c (((e.push (.confirmation a inc.block)).account
      .confirmed a).setWorker p (.recovering todo)) := by
  refine h.move (p := p) .refl rfl ?_ ?_
  · intro b hb
    obtain hb | hb := mem_shared_push hb
    · exact .inl hb
    · rw [List.mem_singleton.mp hb,hw]
      exact .inr (List.mem_append_left _ (List.mem_of_find?_eq_some ha))
  · intro b hb
    rw [hw]
    exact .inl (List.mem_append_right _ hb)

theorem Held.demoted (h : Held c e) {p : Address} {a : Attempt} {group : List Attempt}
    {todo : List (List Attempt)} (hw : e.workers p = .demoting a group todo) :
    Held c ((({ e with
      store := (demoteInclusion e.store a).2
      log := e.store.demotion a a.block ++ e.log }.account .demoted a).setPair p
      Engine.pauseResending).setWorker p (Engine.resending group todo)) := by
  have hr : RowStep c [] e.store (demoteInclusion e.store a).2 := .demote _ _
  refine h.move (p := p) hr rfl (fun _ => .inl) ?_
  intro b hb
  refine h.resend hr ?_ ?_ hb
  · intro x hx
    rw [hw]
    exact List.mem_append_left _ (List.mem_cons_of_mem _ hx)
  · intro x hx
    rw [hw]
    exact List.mem_append_right _ hx

theorem Held.restarted (h : Held c e) (manual : Address → Bool) : Held c (e.restart manual) := by
  refine ⟨h.owned,?_,?_⟩
  · intro a ha
    cases ha
  · intro p a ha
    cases ha

/-- The attempts in memory stay known, whatever the tasks do. -/
theorem Held.step (h : Held c e) (hs : Engine.Step chain c e ev e') : Held c e' := by
  cases hs with
  | skip => exact h
  | op hi he => exact h.stay (.op hi he) rfl fun _ => id
  | signalled hq => exact h.flushed hq
  | wrote _ hq _ hr hp => exact h.wrote hq hr hp
  | parked _ hq => exact h.parked hq
  | confirmed _ hi => exact h.confirmed hi
  | kept misses _ hi => exact h.kept misses hi
  | asked misses _ hi => exact h.asked misses hi
  | stayed misses hm => exact h.stayed misses hm
  | vanished hm | moved hm =>
    refine h.stay .refl rfl ?_
    intro a ha
    rw [mem_shared] at ha ⊢
    rcases ha with ⟨op,hop,ha⟩ | ha | ⟨m,hm',rfl⟩
    · rcases List.mem_append.mp hop with hop | hop
      · exact .inl ⟨op,hop,ha⟩
      · rw [List.mem_singleton.mp hop] at ha
        cases ha
    · exact .inr (.inl ha)
    · cases hm'
      exact .inr (.inr ⟨_,hm,rfl⟩)
  | updated hm hs => exact h.updated hm hs
  | undone => exact h.undone
  | notUndone hm hs => exact h.notUndone hm hs
  | picked hw hp => exact h.move .refl rfl (fun _ => .inl) (by simp)
  | boundFirst _ hc hs _ hb => exact h.boundFirst hc hs hb
  | boundMore hw hc hs _ hb => exact h.boundMore hw hc hs hb
  | settled hw ha => exact h.settled hw ha
  | handedOver hw => exact h.handedOver hw
  | dropped hw | stuck hw | needsRecovery hw | lookFailed hw | finished hw | unfinished hw =>
    exact h.move .refl rfl (fun _ => .inl) (by simp)
  | voided hw => exact h.voided hw
  | recovering => exact h.recovering
  | loaded _ hl => exact h.recovered hl
  | rebroadcast hw => exact h.rebroadcast hw
  | gone hw ha => exact h.gone hw ha
  | resubmitted hw ha => exact h.resubmitted hw ha
  | confirmedAtOnce hw ha => exact h.confirmedAtOnce hw ha
  | demoted hw => exact h.demoted hw
  | notDemoted hw hs =>
    exact h.move (hs.rowStep (RowStep.demote _ _ : RowStep c [] _ _)) rfl (fun _ => .inl)
      (by simp)
  | flags hf => exact h.stay .refl rfl fun _ => id
  | restarted manual => exact h.restarted manual

/-- Whatever is included on chain `c` was included before. -/
def StillIncluded (c : ChainId) (s s' : Store) : Prop :=
  ∀ r' ∈ s'.txAttempts.rows, r'.chainId = c → r'.status = .included →
    ∃ r ∈ s.txAttempts.rows, r.id = r'.id ∧ r.chainId = c ∧ r.status = .included

theorem RowStep.still (h : RowStep c [] s s') : StillIncluded c s s' := by
  intro r' hr' hc hin
  obtain ⟨r,hrm,hsame,hst⟩ := h.keeps r' hr' hc hin
  exact ⟨r,hrm,hsame.id.symm,hsame.chainId ▸ hc,(hst.resolve_right List.not_mem_nil).1⟩

/-- A move changes no status. -/
theorem StillIncluded.update (s : Store) (a : Attempt) (number : Nat) (hash : B256)
    (receipt : Receipt) : StillIncluded c s (updateInclusionBlock s a number hash receipt) := by
  intro r' hr' hc hin
  rw [(updateInclusionBlock_spec s a number hash receipt).attempts] at hr'
  obtain ⟨r,hrm,rfl⟩ := List.mem_map.mp hr'
  have hsame := moveRow_same a number hash r
  rw [moveRow_status] at hin
  exact ⟨r,hrm,hsame.id.symm,hsame.chainId ▸ hc,hin⟩

/-- Only the settler includes and confirms. -/
theorem Engine.Step.log (hs : Engine.Step chain c e ev e') :
    (∃ op rest st, e.queue = op :: rest ∧ op.run e.store = .ok (st,e'.store) ∧
        e'.log = op.notes e'.store st ++ e.log) ∨
      StillIncluded c e.store e'.store ∧
        ∃ new, e'.log = new ++ e.log ∧ ∀ n ∈ new, n.Aside e.store e'.store := by
  have hself : StillIncluded c e.store e.store := RowStep.still (.of_eq rfl)
  have hnone : ∀ s, ∀ n ∈ ([] : List Note), n.Aside e.store s := by
    intro s n hn
    cases hn
  have hone : ∀ {s : Store} {m : Note}, m.Aside e.store s → ∀ n ∈ [m], n.Aside e.store s := by
    intro s m hm n hn
    rw [List.mem_singleton.mp hn]
    exact hm
  cases hs with
  | wrote hf hq hc hr hp => exact .inl ⟨_,_,_,hq,hr,rfl⟩
  | op hi he => exact .inr ⟨(RowStep.op hi he).still,[],rfl,hnone _⟩
  | signalled hq =>
    next w rest call parks =>
    cases w with
    | verifier => exact .inr ⟨hself,[],rfl,hnone _⟩
    | recovery p =>
      simp only [Engine.signal]
      split <;> exact .inr ⟨hself,[],rfl,hnone _⟩
  | confirmed hm hi hv =>
    refine .inr ⟨hself,[_],rfl,hone ?_⟩
    trivial
  | updated hm hs =>
    next item call s =>
    refine .inr ⟨?_,[],rfl,hnone _⟩
    generalize call.reaches = b at hs
    cases hs with
    | refused => exact hself
    | done => exact .update _ _ _ _ _
  | undone hm => exact .inr ⟨(RowStep.demote _ _).still,_,rfl,Engine.undoing_aside⟩
  | notUndone hm hs =>
    exact .inr ⟨(hs.rowStep (.demote _ _)).still,_,rfl,Engine.noted_aside hs⟩
  | boundFirst hw hc hs hm hb => exact .inr ⟨(RowStep.bind hb).still,[],rfl,hnone _⟩
  | boundMore hw hc hs hm hb => exact .inr ⟨(RowStep.bind hb).still,[],rfl,hnone _⟩
  | handedOver hw =>
    split <;>
    · refine .inr ⟨hself,[_],rfl,hone ?_⟩
      trivial
  | confirmedAtOnce hw ha hi hc =>
    refine .inr ⟨hself,[_],rfl,hone ?_⟩
    trivial
  | demoted hw hc =>
    next p call a group todo =>
    refine .inr ⟨(RowStep.demote _ _).still,.accounted .demoted a :: e.store.demotion a a.block,
      rfl,?_⟩
    intro n hn
    rcases List.mem_cons.mp hn with rfl | hn
    · trivial
    · exact Engine.demotion_aside n hn
  | notDemoted hw hs =>
    exact .inr ⟨(hs.rowStep (.demote _ _)).still,_,rfl,Engine.noted_aside hs⟩
  | restarted manual =>
    refine .inr ⟨hself,[_],rfl,hone ?_⟩
    trivial
  | _ => exact .inr ⟨hself,[],rfl,hnone _⟩

theorem Held.init : Held c Engine.init := by
  refine ⟨?_,?_,?_⟩
  · intro r hr
    cases hr
  · intro a ha
    cases ha
  · intro p a ha
    cases ha

theorem Held.of_reaches (h : (confirmation chain c).Reaches Engine.init e) : Held c e := by
  refine h.invariant .init ?_
  intro e ev hh hp
  have hs : Engine.Step chain c e ev (e.step chain c ev) := .of_possible hp
  exact hh.step hs

end Known

end GumEngine
