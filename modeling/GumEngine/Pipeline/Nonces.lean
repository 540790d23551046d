import GumEngine.Pipeline.Fates
import GumEngine.Sequence.Numbering

/-!
# The nonce sequence of a pair

A pair's nonces live in three places: the slots of the database, the high-water mark of
the pair's row, and `next_nonce` in the memory of its task. Slots and mark form a dense
numbering, and whenever the task is about to execute, `next_nonce` is its next number.
Only a nonce at the mark is ever released.
-/

namespace GumEngine
open Relational Transition Sequence

/-- `nonce_hwm` of the pair's row. -/
def Store.nonceHwm (s : Store) (p : PairKey) : Option Nat :=
  (s.pairs.rows.find? fun r => r.key = p).bind (·.nonceHwm)

/-- The row `ensure_pair` leaves behind. -/
def Store.HasPair (s : Store) (p : PairKey) : Prop := ∃ r ∈ s.pairs.rows, r.key = p

/-- The nonces of `p`: those with a slot, those the chain has moved past, and the mark. -/
def World.nonces (w : World) (p : PairKey) : Numbering where
  taken := { n | ∃ x ∈ w.store.nonceSlots.rows, x.slot = p.slot n }
  passed := { n | w.mined (p.slot n) ≠ none }
  mark := w.store.nonceHwm p

theorem World.nextNonce_eq (w : World) (p : PairKey) (c : Nat) :
    w.store.nextNonce p c = max c (w.nonces p).after := rfl

section Pairs

variable {s s' : Store} {p q : PairKey}

theorem confirmInTx_pairs (s : Store) (a : Attempt) : (confirmInTx s a).2.pairs = s.pairs := by
  unfold confirmInTx
  split
  · rfl
  · show (confirmOwner _ a).pairs = _
    unfold confirmOwner
    split
    · split <;> rfl
    · split <;> rfl
    · rfl

theorem includeOwner_pairs {a : Attempt} {inc : Inclusion} {reincluded : Bool}
    (h : includeOwner s a inc reincluded = .ok s') : s'.pairs = s.pairs := by
  unfold includeOwner at h
  split at h
  · split at h
    · cases h
    · cases h
      rfl
  · cases h
    rfl
  · cases h
    rfl

theorem settleInclusion_pairs {a : Attempt} {inc : Inclusion} {confirmNow : Bool} {st : Settled}
    (h : settleInclusion s a inc confirmNow false = .ok (st,s')) : s'.pairs = s.pairs := by
  unfold settleInclusion at h
  split at h
  · cases h
    rfl
  · split at h
    · cases h
    · dsimp only at h
      split at h
      · cases h
      · next m hm =>
        cases h
        have hpairs := includeOwner_pairs hm
        split
        · rw [confirmInTx_pairs,hpairs]
        · exact hpairs

theorem updateInclusionBlock_pairs (s : Store) (a : Attempt) (number : Nat) (hash : B256)
    (receipt : Receipt) : (updateInclusionBlock s a number hash receipt).pairs = s.pairs := by
  unfold updateInclusionBlock
  dsimp only
  split <;> rfl

theorem demoteInclusion_pairs (s : Store) (a : Attempt) :
    (demoteInclusion s a).2.pairs = s.pairs := by
  unfold demoteInclusion
  split
  · rfl
  · show (demoteOwner _ a).pairs = _
    unfold demoteOwner
    split <;> rfl

theorem failJob_pairs (s : Store) (id : JobId) (allowed : List JobStatus) (failure : JobFailure)
    (message : String) (revertData : Option Bytes) :
    (failJob s id allowed failure message revertData).2.pairs = s.pairs := by
  unfold failJob
  split <;> rfl

/-- No transaction but a bind and a void touches the pairs. -/
theorem Op.unfenced_pairs {op : Op} (hop : op.Unfenced = true) (s : Store) :
    (op.apply s).pairs = s.pairs := by
  have keep : ∀ r : Except StoreError Store, (∀ s', r = .ok s' → s'.pairs = s.pairs) →
      (s.commit r).pairs = s.pairs := fun r => Store.commit_cases rfl
  cases op with
  | insertJob id request =>
    refine keep _ fun s' h => ?_
    unfold GumEngine.insertJob at h
    split at h <;> cases h
    rfl
  | createTopup id chainId treasury signer amount =>
    refine keep _ fun s' h => ?_
    unfold GumEngine.createTopup at h
    split at h <;> cases h
    rfl
  | bindAttempt epoch a kind => cases hop
  | settleInclusion a inc confirmNow =>
    exact Store.commit_map_cases (I := fun m => m.pairs = s.pairs) rfl
      fun st s' h => settleInclusion_pairs h
  | settleConfirmation a => exact confirmInTx_pairs s a
  | updateInclusionBlock a number hash receipt => exact updateInclusionBlock_pairs s a _ _ _
  | demoteInclusion a => exact demoteInclusion_pairs s a
  | voidBinding epoch a mode disposition now => cases hop
  | failJob id allowed failure message revertData => exact failJob_pairs s _ _ _ _ _
  | requeueFront id now =>
    refine Store.commit_map_cases (I := fun m => m.pairs = s.pairs) rfl fun n s' h => ?_
    unfold GumEngine.requeueFront at h
    split at h <;> cases h
    rfl
  | cancelQueued id => exact failJob_pairs s _ _ _ _ _
  | acquire => cases hop

theorem bindAttempt_pairs {epoch : Int} {a : Attempt} {kind : BindKind}
    (h : bindAttempt s epoch a kind = .ok s') : s'.pairs = raiseHwm s.pairs a.slot := by
  unfold bindAttempt at h
  split at h
  · cases h
  · split at h
    · cases h
    · split at h
      · cases h
      · split at h
        · cases h
        · split at h
          · cases h
          · cases h
            rfl

theorem voidOwner_pairs (s : Store) (owner : SlotOwner) (disposition : VoidDisposition)
    (now : Nat) : (voidOwner s owner disposition now).pairs = s.pairs := by
  unfold voidOwner
  split
  · rfl
  · split <;> rfl
  · rfl

theorem voidBinding_pairs {epoch : Int} {a : Attempt} {mode : VoidMode}
    {disposition : VoidDisposition} {now : Nat}
    (h : voidBinding s epoch a mode disposition now = .ok s') :
    s'.pairs = if mode = .nonceUnused then lowerHwm s.pairs a.slot else s.pairs := by
  unfold voidBinding at h
  split at h
  · cases h
  · cases h
    rw [voidOwner_pairs]
    split <;> rfl

/-- A lookup after an update of the rows of one key. -/
theorem Store.nonceHwm_update (sel : PairRow → Bool) (f : PairRow → PairRow)
    (hf : ∀ r, (f r).key = r.key) (hs : s'.pairs = s.pairs.update sel f hf) :
    s'.nonceHwm p = (s.pairs.rows.find? fun r => r.key = p).bind
      fun r => (rewrite sel f r).nonceHwm := by
  have hkey : (fun r => decide (r.key = p)) ∘ rewrite sel f = fun r => decide (r.key = p) := by
    funext r
    rw [Function.comp_apply,rewrite_same PairRow.key (fun r _ => hf r)]
  rw [nonceHwm,hs,Table.update_rows,List.find?_map,hkey]
  cases s.pairs.rows.find? fun r => r.key = p <;> rfl

theorem Store.HasPair.of_update (sel : PairRow → Bool) (f : PairRow → PairRow)
    (hf : ∀ r, (f r).key = r.key) (hs : s'.pairs = s.pairs.update sel f hf) (h : s.HasPair p) :
    s'.HasPair p := by
  obtain ⟨r,hr,rfl⟩ := h
  refine ⟨rewrite sel f r,?_,rewrite_same PairRow.key (fun r _ => hf r) r⟩
  rw [hs,Table.update_rows]
  exact List.mem_map_of_mem hr

/-- A mark stands in a row. -/
theorem Store.HasPair.of_hwm {n : Nat} (h : s.nonceHwm p = some n) : s.HasPair p := by
  obtain ⟨r,hr,-⟩ := Option.bind_eq_some_iff.mp h
  exact ⟨r,List.mem_of_find?_eq_some hr,by simpa using List.find?_some hr⟩

theorem Store.raise_hwm {n : Nat} (hs : s'.pairs = raiseHwm s.pairs (p.slot n))
    (h : s.HasPair p) : s'.nonceHwm p = some ((s.nonceHwm p).elim n (max · n)) := by
  obtain ⟨r,hr,hk⟩ := h
  rw [Store.nonceHwm_update (fun r => r.key = p) (PairRow.raise n) (fun _ => rfl) hs,
    Store.nonceHwm,Keyed.find_of_mem s.pairs hr hk,Option.bind_some,Option.bind_some]
  simp [rewrite,hk,PairRow.raise]

theorem Store.raise_hwm_other {n : Nat} (hs : s'.pairs = raiseHwm s.pairs (p.slot n))
    (hq : q ≠ p) : s'.nonceHwm q = s.nonceHwm q := by
  rw [Store.nonceHwm_update (fun r => r.key = p) (PairRow.raise n) (fun _ => rfl) hs]
  refine Option.bind_congr fun r hr => ?_
  have hk : r.key = q := by simpa using List.find?_some hr
  rw [rewrite_of_not]
  rw [hk]
  simpa using hq

theorem Store.lower_hwm {n : Nat} (hs : s'.pairs = lowerHwm s.pairs (p.slot n)) :
    s'.nonceHwm p = if s.nonceHwm p = some n then (if n = 0 then none else some (n - 1))
      else s.nonceHwm p := by
  rw [Store.nonceHwm_update (fun r => r.key = p && r.nonceHwm = some n) (PairRow.lower n)
    (fun _ => rfl) hs,Store.nonceHwm]
  generalize hf : s.pairs.rows.find? (fun r => decide (r.key = p)) = found
  cases found with
  | none => rfl
  | some r =>
    have hk : r.key = p := by simpa using List.find?_some hf
    by_cases hm : r.nonceHwm = some n
    · simp [rewrite,hk,hm,PairRow.lower]
    · simp [rewrite,hk,hm]

theorem Store.lower_hwm_other {n : Nat} (hs : s'.pairs = lowerHwm s.pairs (p.slot n))
    (hq : q ≠ p) : s'.nonceHwm q = s.nonceHwm q := by
  rw [Store.nonceHwm_update (fun r => r.key = p && r.nonceHwm = some n) (PairRow.lower n)
    (fun _ => rfl) hs]
  refine Option.bind_congr fun r hr => ?_
  have hk : r.key = q := by simpa using List.find?_some hr
  rw [rewrite_of_not]
  rw [hk]
  simp [hq]

end Pairs

section Slots

variable {s s' : Store} {w : World} {p q : PairKey} {a : Attempt} {kind : BindKind} {n : Nat}

theorem PairKey.slot_inj {m : Nat} : p.slot n = q.slot m ↔ p = q ∧ n = m := by
  constructor
  · intro h
    exact ⟨PairKey.slot_pair h,congrArg Slot.nonce h⟩
  · rintro ⟨rfl,rfl⟩
    rfl

/-- A claim takes the slot of the attempt; a replacement finds it taken. -/
theorem claimSlot_taken {t : Keyed SlotRow.slot} (h : claimSlot s a kind = some t) (k : Slot) :
    (∃ x ∈ t.rows, x.slot = k) ↔ k = a.slot ∨ ∃ x ∈ s.nonceSlots.rows, x.slot = k := by
  have hagain : (if s.slotOwnerId a.slot = some a.owner.id then some s.nonceSlots else none) =
      some t → ((∃ x ∈ t.rows, x.slot = k) ↔
        k = a.slot ∨ ∃ x ∈ s.nonceSlots.rows, x.slot = k) := by
    intro h
    split at h
    · next hown =>
      cases h
      obtain ⟨x,hx,-⟩ := Option.map_eq_some_iff.mp hown
      have hxs : x.slot = a.slot := by simpa using List.find?_some hx
      constructor
      · exact .inr
      · rintro (rfl | h)
        · exact ⟨x,List.mem_of_find?_eq_some hx,hxs⟩
        · exact h
    · cases h
  cases kind with
  | first =>
    obtain ⟨hrows,-⟩ := Table.insert_eq_some h
    rw [hrows]
    constructor
    · rintro ⟨x,hx,rfl⟩
      rcases List.mem_append.mp hx with hx | hx
      · exact .inr ⟨x,hx,rfl⟩
      · rw [List.mem_singleton.mp hx]
        exact .inl rfl
    · rintro (rfl | ⟨x,hx,rfl⟩)
      · exact ⟨_,List.mem_append_right _ List.mem_cons_self,rfl⟩
      · exact ⟨x,List.mem_append_left _ hx,rfl⟩
  | replacement => exact hagain h
  | cancel => exact hagain h

/-- A further bind finds the slot with its owner. -/
theorem claimSlot_again {t : Keyed SlotRow.slot} (h : claimSlot s a kind = some t)
    (hk : kind ≠ .first) : s.slotOwnerId a.slot = some a.owner.id := by
  cases kind with
  | first => exact absurd rfl hk
  | replacement =>
    simp only [claimSlot] at h
    split at h
    · assumption
    · cases h
  | cancel =>
    simp only [claimSlot] at h
    split at h
    · assumption
    · cases h

/-- A slot that has an owner is taken. -/
theorem World.taken_of_owner {i : Uuid} (h : w.store.slotOwnerId (p.slot n) = some i) :
    n ∈ (w.nonces p).taken := by
  obtain ⟨x,hx,-⟩ := Option.map_eq_some_iff.mp h
  exact ⟨x,List.mem_of_find?_eq_some hx,by simpa using List.find?_some hx⟩

/-- A committed bind takes the nonce of its attempt. -/
theorem World.nonces_bind {epoch : Int} (h : bindAttempt w.store epoch a kind = .ok s')
    (hslot : a.slot = p.slot n) (hrow : w.store.HasPair p) (bound : List Attempt) :
    { w with store := s', bound := bound }.nonces p = (w.nonces p).take n := by
  refine Numbering.ext ?_ rfl ?_
  · refine Set.ext fun m => ?_
    have htaken := claimSlot_taken (bindAttempt_spec h).slots (p.slot m)
    rw [hslot,PairKey.slot_inj] at htaken
    simpa [Numbering.take,World.nonces] using htaken
  · exact Store.raise_hwm (hslot ▸ bindAttempt_pairs h) hrow

/-- A bind leaves the nonces of the other pairs alone. -/
theorem World.nonces_bind_other {epoch : Int} (h : bindAttempt w.store epoch a kind = .ok s')
    (hslot : a.slot = p.slot n) (hq : q ≠ p) (bound : List Attempt) :
    { w with store := s', bound := bound }.nonces q = w.nonces q := by
  refine Numbering.ext ?_ rfl ?_
  · refine Set.ext fun m => ?_
    have htaken := claimSlot_taken (bindAttempt_spec h).slots (q.slot m)
    rw [hslot,PairKey.slot_inj] at htaken
    simpa [World.nonces,hq] using htaken
  · exact Store.raise_hwm_other (hslot ▸ bindAttempt_pairs h) hq

/-- A void of an unused nonce releases it. -/
theorem World.nonces_release {epoch : Int} {disposition : VoidDisposition} {now : Nat}
    (h : voidBinding w.store epoch a .nonceUnused disposition now = .ok s')
    (hslot : a.slot = p.slot n)
    (howner : w.store.slotOwnerId (p.slot n) = some a.owner.id ∨ n ∉ (w.nonces p).taken) :
    { w with store := s' }.nonces p = (w.nonces p).release n := by
  -- the row at the slot, if there is one, is the attempt's owner's
  have hown : ∀ x ∈ w.store.nonceSlots.rows, x.slot = p.slot n → x.ownerId = a.owner.id := by
    intro x hx hxs
    rcases howner with ho | hno
    · obtain ⟨y,hy,hyo⟩ := Option.map_eq_some_iff.mp ho
      have hys : y.slot = p.slot n := by simpa using List.find?_some hy
      have hxy : x = y :=
        Keyed.eq_of_key w.store.nonceSlots hx (List.mem_of_find?_eq_some hy) (hxs.trans hys.symm)
      rw [hxy]
      exact hyo
    · exact absurd ⟨x,hx,hxs⟩ hno
  refine Numbering.ext ?_ rfl ?_
  · refine Set.ext fun m => ?_
    have hslots := (voidBinding_spec h).slots
    simp only [World.nonces,Numbering.release,Set.mem_ofPred_eq,Set.mem_sdiff,
      Set.mem_singleton_iff,hslots,List.mem_filter]
    constructor
    · rintro ⟨x,⟨hx,hkeep⟩,hxs⟩
      refine ⟨⟨x,hx,hxs⟩,?_⟩
      rintro rfl
      simp [hxs,hslot,hown x hx hxs] at hkeep
    · rintro ⟨⟨x,hx,hxs⟩,hne⟩
      refine ⟨x,⟨hx,?_⟩,hxs⟩
      simp [hxs,hslot,PairKey.slot_inj,hne]
  · have hpairs := voidBinding_pairs h
    rw [if_pos rfl,hslot] at hpairs
    exact Store.lower_hwm hpairs

/-- A void leaves the nonces of the other pairs alone, and all nonces when the nonce is used. -/
theorem World.nonces_void {epoch : Int} {mode : VoidMode} {disposition : VoidDisposition}
    {now : Nat} (h : voidBinding w.store epoch a mode disposition now = .ok s')
    (hslot : a.slot = p.slot n) (hq : mode = .nonceUnused → q ≠ p) :
    { w with store := s' }.nonces q = w.nonces q := by
  refine Numbering.ext ?_ rfl ?_
  · refine Set.ext fun m => ?_
    simp only [World.nonces,Set.mem_ofPred_eq,(voidBinding_spec h).slots,List.mem_filter]
    constructor
    · rintro ⟨x,⟨hx,-⟩,hxs⟩
      exact ⟨x,hx,hxs⟩
    · rintro ⟨x,hx,hxs⟩
      refine ⟨x,⟨hx,?_⟩,hxs⟩
      by_cases hm : mode = .nonceUnused
      · simp [hxs,hslot,PairKey.slot_inj,hq hm]
      · simp [hm]
  · have hpairs := voidBinding_pairs h
    rw [hslot] at hpairs
    split at hpairs
    · next hm => exact Store.lower_hwm_other hpairs (hq hm)
    · exact congrArg (fun t => (t.rows.find? fun r => decide (r.key = q)).bind (·.nonceHwm)) hpairs

end Slots

/-! ## The answers of the environment -/

/-- What `bind` answers after a round, when it does: the attempt is stored, or not. -/
def RoundEnd.answer (left : Nat) : RoundEnd → Option Bool
  | .bound => some true
  | .failed _ => some false
  | .retry _ => if left = 0 then some false else none

/-- An answer of `bind` agrees with what is stored. -/
def Activity.BindAgrees (w : World) (r : Round) : Activity → Prop
  | .binding goal a left => ∀ b ∈ (r.run w.store w.epoch a goal.kind).1.answer left,
      b = true ↔ a ∈ (w.written a goal.kind r).bound
  | _ => True

/-- Answers to binds agree with the store, and a node that is asked for the nonce of a
signer counts mined transactions. -/
def Event.Agrees (w : World) : Event → Prop
  | .task p (.round r) => (w.tasks p).BindAgrees w r
  | .task p (.recoverDone (some n)) => ∀ m < n, w.mined (p.slot m) ≠ none
  | _ => True

instance (w : World) (r : Round) : DecidablePred (Activity.BindAgrees w r)
  | .binding goal a left => inferInstanceAs (Decidable
      (∀ b ∈ (r.run w.store w.epoch a goal.kind).1.answer left,
        b = true ↔ a ∈ (w.written a goal.kind r).bound))
  | .down | .paused | .signerUnavailable | .idle | .sending _ | .polling _ | .lookingBack _ _ _
  | .replacing _ | .cancelling _ | .voiding _ _ _ | .recovering _ => .isTrue trivial

instance (w : World) : DecidablePred (Event.Agrees w)
  | .task p (.round r) => inferInstanceAs (Decidable ((w.tasks p).BindAgrees w r))
  | .task p (.recoverDone (some n)) =>
    inferInstanceAs (Decidable (∀ m < n, w.mined (p.slot m) ≠ none))
  | .op _ | .mine _ _ | .restart | .task _ (.execute _ _) | .task _ .deliver | .task _ (.arrive _ _)
  | .task _ (.answer _) | .task _ (.lookBack _) | .task _ (.poll _) | .task _ (.escalate _) | .task _ (.sign _)
  | .task _ (.void _ _) | .task _ .recover | .task _ (.recoverNext _)
  | .task _ (.recoverDone none) | .task _ .resume | .task _ .stop => .isTrue trivial

/-! ## The invariant -/

/-- The task may take a job at once. -/
def Activity.ready : Activity → Bool
  | .idle | .signerUnavailable => true
  | _ => false

/-- A nonce the task drives outside recovery: it is the one at the mark, or a void of it
committed without the task being told. -/
structure InFlight.Paced (w : World) (p : PairKey) (f : InFlight) : Prop where
  last : f.last.slot = p.slot f.nonce
  row : w.store.HasPair p
  next : w.nextNonce p = f.nonce + 1
  place : (w.nonces p).after = f.nonce + 1 ∧
      w.store.slotOwnerId (p.slot f.nonce) = some f.last.owner.id ∨
    (w.nonces p).after = f.nonce

/-- A first attempt that is being bound. -/
structure Attempt.Paced (w : World) (p : PairKey) (a : Attempt) : Prop where
  slot : a.slot = p.slot (w.nextNonce p)
  row : w.store.HasPair p
  stored : a ∈ w.bound → (w.nonces p).after = w.nextNonce p + 1 ∧
    w.store.slotOwnerId a.slot = some a.owner.id
  unstored : a ∉ w.bound → (w.nonces p).Next (w.nextNonce p)

/-- The nonces of `p` are dense, and its task stands where they say. -/
structure Paced (w : World) (p : PairKey) : Prop where
  dense : (w.nonces p).Dense
  ready : (w.tasks p).ready = true → w.store.HasPair p ∧ (w.nonces p).Next (w.nextNonce p)
  first : ∀ a left, w.tasks p = .binding .execute a left → a.Paced w p
  again : ∀ goal a left, w.tasks p = .binding goal a left → ∀ f ∈ goal.inFlight,
    a.slot = p.slot f.nonce ∧
      (a ∈ w.bound → w.store.slotOwnerId (p.slot f.nonce) = some a.owner.id)
  flight : ∀ f ∈ (w.tasks p).inFlight, f.todo = none → f.Paced w p
  honest : (w.tasks p).Honest
  fresh : ∀ f ∈ (w.tasks p).inFlight, f.neverAccepted = true → f.todo = none

/-- The invariant: every pair is paced, and attempts carry ids that were handed out. -/
structure Numbered (w : World) : Prop where
  paced : ∀ p, Paced w p
  bound : ∀ b ∈ w.bound, b.id ∈ w.signed
  pending : ∀ p a, (w.tasks p).pending = some a → a.id ∈ w.signed

section Frame

variable {w w' : World} {p q : PairKey} {t : Activity}

/-- What an event of another pair leaves of a pair. -/
structure SameView (w w' : World) (q : PairKey) : Prop where
  nonces : w'.nonces q = w.nonces q
  owners : ∀ n i, w.store.slotOwnerId (q.slot n) = some i → w'.store.slotOwnerId (q.slot n) = some i
  row : w.store.HasPair q → w'.store.HasPair q
  next : w'.nextNonce q = w.nextNonce q
  bound : ∀ a n, a.slot = q.slot n → (a ∈ w'.bound ↔ a ∈ w.bound)

theorem InFlight.Paced.same {f : InFlight} (h : f.Paced w q) (hv : SameView w w' q) :
    f.Paced w' q := by
  refine ⟨h.last,hv.row h.row,hv.next.trans h.next,?_⟩
  rw [hv.nonces]
  exact h.place.imp_left fun ⟨hm,ho⟩ => ⟨hm,hv.owners _ _ ho⟩

theorem Attempt.Paced.same {a : Attempt} (h : a.Paced w q) (hv : SameView w w' q) :
    a.Paced w' q := by
  have hb := hv.bound a _ h.slot
  refine ⟨?_,hv.row h.row,?_,?_⟩
  · rw [hv.next]
    exact h.slot
  · intro ha
    obtain ⟨hm,ho⟩ := h.stored (hb.mp ha)
    rw [hv.nonces,hv.next]
    refine ⟨hm,?_⟩
    rw [h.slot] at ho ⊢
    exact hv.owners _ _ ho
  · intro ha
    rw [hv.nonces,hv.next]
    exact h.unstored fun hx => ha (hb.mpr hx)

/-- The view of a pair and its task decide whether it is paced. -/
theorem Paced.same (h : Paced w q) (hv : SameView w w' q) (ht : w'.tasks q = w.tasks q) :
    Paced w' q := by
  refine ⟨?_,?_,?_,?_,?_,?_,?_⟩
  · rw [hv.nonces]
    exact h.dense
  · rw [ht,hv.nonces,hv.next]
    intro hr
    exact ⟨hv.row (h.ready hr).1,(h.ready hr).2⟩
  · rw [ht]
    exact fun a left hb => (h.first a left hb).same hv
  · rw [ht]
    intro goal a left hb f hf
    obtain ⟨hslot,ho⟩ := h.again goal a left hb f hf
    exact ⟨hslot,fun ha => hv.owners _ _ (ho ((hv.bound a _ hslot).mp ha))⟩
  · rw [ht]
    exact fun f hf hn => (h.flight f hf hn).same hv
  · rw [ht]
    exact h.honest
  · rw [ht]
    exact h.fresh

theorem SameView.of_store (hs : w'.store = w.store) (hm : w'.mined = w.mined)
    (hn : w'.nextNonce q = w.nextNonce q) (hb : w'.bound = w.bound) : SameView w w' q := by
  refine ⟨?_,?_,?_,hn,?_⟩
  · unfold World.nonces
    rw [hs,hm]
  · rw [hs]
    exact fun n i h => h
  · rw [hs]
    exact fun h => h
  · rw [hb]
    exact fun a n ha => Iff.rfl

/-- Transactions that keep slots and pairs. -/
theorem SameView.of_kept {s : Store} (hs : s.nonceSlots = w.store.nonceSlots)
    (hp : s.pairs = w.store.pairs) (q : PairKey) : SameView w { w with store := s } q := by
  refine ⟨?_,?_,?_,rfl,fun a n ha => Iff.rfl⟩
  · refine Numbering.ext ?_ rfl ?_
    · simp only [World.nonces,hs]
    · simp only [World.nonces,Store.nonceHwm,hp]
  · intro n i h
    rwa [show ({ w with store := s } : World).store = s from rfl,Store.slotOwnerId,hs]
  · rintro ⟨r,hr,hk⟩
    refine ⟨r,?_,hk⟩
    show r ∈ s.pairs.rows
    rwa [hp]

/-- An event changes the view of one pair only. -/
theorem Numbered.at (h : Numbered w) (hview : ∀ q, q ≠ p → SameView w w' q)
    (htasks : ∀ q, q ≠ p → w'.tasks q = w.tasks q) (hp : Paced w' p)
    (hbound : ∀ b ∈ w'.bound, b.id ∈ w'.signed) (hsigned : ∀ i ∈ w.signed, i ∈ w'.signed)
    (hpend : ∀ a, (w'.tasks p).pending = some a → a.id ∈ w'.signed) : Numbered w' := by
  refine ⟨?_,hbound,?_⟩
  · intro q
    by_cases hq : q = p
    · rw [hq]
      exact hp
    · exact (h.paced q).same (hview q hq) (htasks q hq)
  · intro q a ha
    by_cases hq : q = p
    · rw [hq] at ha
      exact hpend a ha
    · rw [htasks q hq] at ha
      exact hsigned _ (h.pending q a ha)

theorem World.setTask_tasks (w : World) (p : PairKey) (t : Activity) :
    (w.setTask p t).tasks p = t := by
  rw [World.tasks_setTask,if_pos rfl]

theorem SameView.setTask (w : World) (p : PairKey) (t : Activity) (q : PairKey) :
    SameView w (w.setTask p t) q :=
  .of_store rfl rfl rfl rfl

theorem Numbered.setTask (h : Numbered w) (hp : Paced (w.setTask p t) p)
    (hpend : ∀ a, t.pending = some a → a.id ∈ w.signed) : Numbered (w.setTask p t) := by
  refine h.at (fun q hq => .setTask w p t q) ?_ hp h.bound (fun i hi => hi) ?_
  · intro q hq
    rw [World.tasks_setTask,if_neg hq]
  · intro a ha
    rw [World.setTask_tasks] at ha
    exact hpend a ha

/-- A task that is not binding is paced when it is ready at the next nonce or drives a
paced one. -/
theorem Paced.of_free (hd : (w.nonces p).Dense) (hfree : (w.tasks p).pending = none)
    (hon : (w.tasks p).Honest)
    (hready : (w.tasks p).ready = true → w.store.HasPair p ∧ (w.nonces p).Next (w.nextNonce p))
    (hflight : ∀ f ∈ (w.tasks p).inFlight, f.todo = none → f.Paced w p)
    (hfresh : ∀ f ∈ (w.tasks p).inFlight, f.neverAccepted = true → f.todo = none) :
    Paced w p := by
  refine ⟨hd,hready,?_,?_,hflight,hon,hfresh⟩
  · intro a left hb
    rw [hb] at hfree
    cases hfree
  · intro goal a left hb
    rw [hb] at hfree
    cases hfree

/-- A task that rests may take a job when the next nonce is known. -/
theorem Paced.rests (hd : (w.nonces p).Dense) (ht : (w.tasks p).Rests)
    (hready : w.store.HasPair p ∧ (w.nonces p).Next (w.nextNonce p)) : Paced w p := by
  refine Paced.of_free hd ht.free ht.honest (fun _ => hready) ?_ ?_
  · exact fun f hf => absurd hf ht.no_inFlight
  · exact fun f hf => absurd hf ht.no_inFlight

/-- A task that holds nothing and waits. -/
theorem Paced.waits (h : Paced w p) (hfree : t.pending = none) (hon : t.Honest)
    (hin : t.inFlight = none) (hready : t.ready = false) : Paced (w.setTask p t) p := by
  have ht := World.setTask_tasks w p t
  refine Paced.of_free h.dense ?_ ?_ ?_ ?_ ?_
  · rw [ht]
    exact hfree
  · rw [ht]
    exact hon
  · rw [ht,hready]
    exact fun hx => by cases hx
  · rw [ht,hin]
    exact fun f hf => by cases hf
  · rw [ht,hin]
    exact fun f hf => by cases hf

theorem InFlight.Paced.like {f f' : InFlight} (h : f.Paced w p) (hl : f'.Like f) :
    f'.Paced w p := by
  refine ⟨?_,h.row,?_,?_⟩
  · rw [hl.last,hl.nonce]
    exact h.last
  · rw [hl.nonce]
    exact h.next
  · rw [hl.last,hl.nonce]
    exact h.place

/-- Once the nonce is mined, the one after it is next. -/
theorem InFlight.Paced.mined {f : InFlight} (h : f.Paced w p) (hd : (w.nonces p).Dense)
    (hm : w.mined (p.slot f.nonce) ≠ none) : (w.nonces p).Next (w.nextNonce p) := by
  rw [h.next]
  rcases h.place with ⟨ha,-⟩ | ha
  · rw [← ha]
    exact hd.next_after
  · exact (ha ▸ hd.next_after).succ hm

/-- The task goes on with its nonce, or leaves it because it was mined. -/
theorem Numbered.goes (h : Numbered w) {f : InFlight} (hf : f ∈ (w.tasks p).inFlight)
    (ht : t.From f)
    (hready : t.ready = true → f.todo = none ∧ w.mined (p.slot f.nonce) ≠ none) :
    Numbered (w.setTask p t) := by
  have hp := h.paced p
  have htask := World.setTask_tasks w p t
  refine h.setTask (Paced.of_free hp.dense ?_ ?_ ?_ ?_ ?_) ?_
  · rw [htask]
    exact ht.free
  · rw [htask]
    exact ht.honest
  · rw [htask]
    intro hr
    obtain ⟨htodo,hm⟩ := hready hr
    have hpace := hp.flight f hf htodo
    exact ⟨hpace.row,hpace.mined hp.dense hm⟩
  · rw [htask]
    intro f' hf' htodo
    have hl := ht.inFlight f' hf'
    exact ((hp.flight f hf (hl.todo.symm.trans htodo)).like hl).same (.setTask w p t p)
  · rw [htask]
    intro f' hf' hfr
    have hl := ht.inFlight f' hf'
    rw [hl.todo]
    exact hp.fresh f hf (hl.fresh hfr)
  · intro a ha
    rw [ht.free] at ha
    cases ha

end Frame

end GumEngine
