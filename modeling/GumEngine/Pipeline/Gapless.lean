import GumEngine.Pipeline.Nonces

/-!
# No gap and no reuse

Every event keeps the nonces of every pair dense and its task at the next of them. A task
leaves a nonce for the next one only when it was mined, when it was voided, or through
recovery, which starts over from the mark.
-/

namespace GumEngine
open Relational Transition Sequence

section Readiness

/-! ## When the task becomes ready -/

variable {f : InFlight}

theorem InFlight.done_ready (h : f.done.ready = true) : f.todo = none := by
  unfold InFlight.done at h
  split at h
  · assumption
  · cases h

theorem InFlight.onReceipt_ready {hash : B256} {usable : Bool} {t : Activity}
    (h : f.onReceipt hash usable = some t) (hr : t.ready = true) : f.todo = none := by
  unfold InFlight.onReceipt at h
  split at h
  · cases h
    exact InFlight.done_ready hr
  · cases h

theorem InFlight.needsRecovery_ready (f : InFlight) : f.needsRecovery.ready = false := by
  unfold InFlight.needsRecovery
  split <;> rfl

theorem InFlight.onSendError_ready (chain : ChainKind) (f : InFlight) (text : String)
    (kind : SendErrorClass) : (f.onSendError chain text kind).ready = false := by
  cases kind with
  | nonceTooHigh => exact f.needsRecovery_ready
  | deterministic =>
    simp only [InFlight.onSendError]
    split <;> rfl
  | _ => rfl

/-- The answer to a send ends the nonce only with a receipt. -/
theorem InFlight.onAnswer_ready {chain : ChainKind} {a : Answer}
    (h : (f.onAnswer chain a).ready = true) :
    f.todo = none ∧ ∃ hash usable, a = .receipt hash usable := by
  cases a with
  | receipt hash usable =>
    refine ⟨?_,hash,usable,rfl⟩
    simp only [InFlight.onAnswer] at h
    cases ht : InFlight.onReceipt { f with firstBroadcast := false } hash usable with
    | none =>
      rw [ht] at h
      cases h
    | some t =>
      rw [ht,Option.getD_some] at h
      exact InFlight.onReceipt_ready ht h
  | accepted => cases h
  | notDelivered => cases h
  | error kind text =>
    have hno := InFlight.onSendError_ready chain { f with firstBroadcast := false } text kind
    simp only [InFlight.onAnswer] at h
    rw [hno] at h
    cases h

theorem InFlight.onNonceTooLow_ready {fresh parks : Bool} {found : Option B256}
    (h : (f.onNonceTooLow fresh parks found).ready = true) :
    f.todo = none ∧ ∃ hash, found = some hash := by
  unfold InFlight.onNonceTooLow at h
  split at h
  · next t ht =>
    obtain ⟨hash,hfound,ht⟩ := Option.bind_eq_some_iff.mp ht
    exact ⟨InFlight.onReceipt_ready ht h,hash,hfound⟩
  · split at h
    · cases h
    · split at h <;> cases h

theorem InFlight.poll_ready {found : Option B256}
    (h : ((found.bind fun x => f.onReceipt x true).getD (.polling f)).ready = true) :
    f.todo = none ∧ ∃ hash, found = some hash := by
  cases hb : found.bind fun x => f.onReceipt x true with
  | none =>
    rw [hb] at h
    cases h
  | some t =>
    rw [hb,Option.getD_some] at h
    obtain ⟨hash,hfound,ht⟩ := Option.bind_eq_some_iff.mp hb
    exact ⟨InFlight.onReceipt_ready ht h,hash,hfound⟩

theorem InFlight.escalate_ready (chain : ChainKind) (f : InFlight) (d : Diagnosis) :
    (f.escalate chain d).ready = false := by
  unfold InFlight.escalate
  dsimp only
  split
  · rfl
  · rfl
  · split
    · rfl
    · split
      · exact f.needsRecovery_ready
      · split
        · rfl
        · split <;> rfl
  · split <;> rfl
  · rfl

end Readiness

section Binding

/-! ## Binds -/

variable {w : World} {p q : PairKey} {goal : Goal} {a : Attempt} {left : Nat}

/-- A round that commits runs the bind. -/
theorem Round.run_committed {s : Store} {epoch : Int} {kind : BindKind} {r : Round}
    (h : r.call.commits s epoch a kind = true) :
    bindAttempt s epoch a kind = .ok (r.run s epoch a kind).2 := by
  rw [Round.run_store]
  unfold Call.run
  cases hc : r.call with
  | refused e =>
    rw [hc] at h
    cases h
  | answered =>
    rw [hc] at h
    cases hb : bindAttempt s epoch a kind with
    | ok s' => rfl
    | error e => simp [Call.commits,hb,Except.isOk,Except.toBool] at h
  | lost e =>
    rw [hc] at h
    cases hb : bindAttempt s epoch a kind with
    | ok s' => rfl
    | error e => simp [Call.commits,hb,Except.isOk,Except.toBool] at h

/-- A nonce whose slot is taken is not the one after the mark. -/
theorem Paced.not_after (h : Paced w p) {n : Nat} {i : Uuid}
    (ho : w.store.slotOwnerId (p.slot n) = some i) : (w.nonces p).after ≠ n := by
  intro ha
  have hlt := h.dense.below n (World.taken_of_owner ho)
  rw [ha] at hlt
  exact hlt.false

theorem Paced.hasPair (h : Paced w p) {n : Nat} (hn : n ∈ (w.nonces p).taken) :
    w.store.HasPair p := by
  have hlt := h.dense.below n hn
  cases hm : w.store.nonceHwm p with
  | none =>
    have hmark : (w.nonces p).mark = none := hm
    rw [Numbering.after,hmark] at hlt
    exact absurd hlt (Nat.not_lt_zero n)
  | some k => exact .of_hwm hm

/-- A bind is seen by its own pair only. -/
theorem SameView.bind {s : Store} {kind : BindKind} {n : Nat}
    (hb : bindAttempt w.store w.epoch a kind = .ok s) (hslot : a.slot = p.slot n) (hq : q ≠ p) :
    SameView w { w with store := s, bound := a :: w.bound } q := by
  refine ⟨World.nonces_bind_other hb hslot hq _,?_,?_,rfl,?_⟩
  · exact fun m i hi => (claimSlot_owner (bindAttempt_spec hb).slots).2 _ i hi
  · exact Store.HasPair.of_update _ (PairRow.raise a.nonce) (fun _ => rfl) (bindAttempt_pairs hb)
  · intro x m hx
    refine ⟨fun hmem => ?_,List.mem_cons_of_mem a⟩
    rcases List.mem_cons.mp hmem with rfl | hmem
    · exact absurd (PairKey.slot_pair (hx.symm.trans hslot)) hq
    · exact hmem

/-- A first bind that commits takes the next nonce. -/
theorem Paced.binds_first {s : Store} (h : Paced w p) (hp : w.tasks p = .binding .execute a left)
    (hb : bindAttempt w.store w.epoch a .first = .ok s) :
    Paced { w with store := s, bound := a :: w.bound } p := by
  have ha := h.first a left hp
  have hown := claimSlot_owner (bindAttempt_spec hb).slots
  -- had the attempt been stored, its slot would be taken
  have hnew : a ∉ w.bound := by
    intro hmem
    obtain ⟨x,hx,hxs⟩ := World.taken_of_owner (ha.slot ▸ (ha.stored hmem).2)
    obtain ⟨-,hfree⟩ := Table.insert_eq_some (bindAttempt_spec hb).slots
    exact hfree x hx (hxs.trans ha.slot.symm)
  have hnext := ha.unstored hnew
  have hnonces := World.nonces_bind hb ha.slot ha.row (a :: w.bound)
  refine ⟨?_,?_,?_,?_,?_,h.honest,h.fresh⟩
  · rw [hnonces]
    exact hnext.take_dense h.dense
  · intro hr
    rw [show ({ w with store := s, bound := a :: w.bound } : World).tasks = w.tasks from rfl,hp]
      at hr
    cases hr
  · intro a' left' hp'
    obtain ⟨-,rfl,-⟩ := Activity.binding.inj (hp.symm.trans hp')
    refine ⟨ha.slot,?_,?_,?_⟩
    · exact .of_update _ (PairRow.raise a.nonce) (fun _ => rfl) (bindAttempt_pairs hb) ha.row
    · intro _
      rw [hnonces,hnext.take_after]
      exact ⟨rfl,hown.1⟩
    · exact fun hno => absurd List.mem_cons_self hno
  · intro goal a' left' hp' f hf
    obtain ⟨rfl,-⟩ := Activity.binding.inj (hp.symm.trans hp')
    cases hf
  · intro f hf
    rw [show ({ w with store := s, bound := a :: w.bound } : World).tasks = w.tasks from rfl,hp]
      at hf
    cases hf

/-- A further bind that commits finds its nonce taken by the owner, and keeps the mark. -/
theorem Paced.binds_again {s : Store} {f : InFlight} (h : Paced w p)
    (hp : w.tasks p = .binding goal a left) (hf : goal.inFlight = some f)
    (hb : bindAttempt w.store w.epoch a goal.kind = .ok s) :
    Paced { w with store := s, bound := a :: w.bound } p := by
  obtain ⟨hslot,-⟩ := h.again goal a left hp f hf
  have hown := claimSlot_owner (bindAttempt_spec hb).slots
  have hkind : goal.kind ≠ .first := by
    rintro hk
    cases goal with
    | execute => cases hf
    | replace g => cases hk
    | cancel g => cases hk
  have hclaim := claimSlot_again (bindAttempt_spec hb).slots hkind
  rw [hslot] at hclaim
  have htaken := World.taken_of_owner hclaim
  have hrow := h.hasPair htaken
  have hnonces : ({ w with store := s, bound := a :: w.bound } : World).nonces p = w.nonces p := by
    rw [World.nonces_bind hb hslot hrow,h.dense.take_taken htaken]
  have hrow' : s.HasPair p :=
    .of_update _ (PairRow.raise a.nonce) (fun _ => rfl) (bindAttempt_pairs hb) hrow
  refine ⟨?_,?_,?_,?_,?_,h.honest,h.fresh⟩
  · rw [hnonces]
    exact h.dense
  · intro hr
    rw [show ({ w with store := s, bound := a :: w.bound } : World).tasks = w.tasks from rfl,hp]
      at hr
    cases hr
  · intro a' left' hp'
    obtain ⟨rfl,-⟩ := Activity.binding.inj (hp.symm.trans hp')
    cases hf
  · intro goal' a' left' hp' f' hf'
    obtain ⟨rfl,rfl,-⟩ := Activity.binding.inj (hp.symm.trans hp')
    obtain rfl : f = f' := Option.some.inj (hf.symm.trans hf')
    refine ⟨hslot,fun _ => ?_⟩
    rw [← hslot]
    exact hown.1
  · intro f' hf' htodo
    have hpace := h.flight f' hf' htodo
    refine ⟨hpace.last,hrow',hpace.next,?_⟩
    rw [hnonces]
    exact hpace.place.imp_left fun ⟨hm,ho⟩ => ⟨hm,hown.2 _ _ ho⟩

theorem Numbered.written (h : Numbered w) (hp : w.tasks p = .binding goal a left) (r : Round) :
    Numbered (w.written a goal.kind r) := by
  unfold World.written
  rcases r.run_commits w.store w.epoch a goal.kind with ⟨hc,hs⟩ | ⟨hc,-⟩
  · rw [hs,hc]
    exact h
  · have hb := Round.run_committed hc
    rw [if_pos hc]
    have hpace := h.paced p
    have hpend : (w.tasks p).pending = some a := by
      rw [hp]
      rfl
    obtain ⟨n,hslot⟩ : ∃ n, a.slot = p.slot n := by
      cases goal with
      | execute => exact ⟨_,(hpace.first a left hp).slot⟩
      | replace f => exact ⟨_,(hpace.again _ a left hp f rfl).1⟩
      | cancel f => exact ⟨_,(hpace.again _ a left hp f rfl).1⟩
    refine h.at (fun q hq => .bind hb hslot hq) (fun q hq => rfl) ?_ ?_ (fun i hi => hi)
      (h.pending p)
    · cases goal with
      | execute => exact hpace.binds_first hp hb
      | replace f => exact hpace.binds_again hp rfl hb
      | cancel f => exact hpace.binds_again hp rfl hb
    · intro b hmem
      rcases List.mem_cons.mp hmem with rfl | hmem
      · exact h.pending p b hpend
      · exact h.bound b hmem

/-- The task of `p` stands where it stood, with `next_nonce` moved. -/
theorem Numbered.place (h : Numbered w) {n : Nat} {t : Activity}
    (hp : Paced ((w.setNextNonce p n).setTask p t) p) (hfree : t.pending = none) :
    Numbered ((w.setNextNonce p n).setTask p t) := by
  refine h.at ?_ ?_ hp h.bound (fun i hi => hi) ?_
  · intro q hq
    exact .of_store rfl rfl (Function.update_of_ne hq _ _) rfl
  · intro q hq
    rw [World.tasks_setTask,if_neg hq]
    rfl
  · intro a ha
    rw [World.setTask_tasks,hfree] at ha
    cases ha

theorem World.setNextNonce_self (w : World) (p : PairKey) (n : Nat) (t : Activity) :
    ((w.setNextNonce p n).setTask p t).nextNonce p = n :=
  Function.update_self ..

/-- A nonce in flight with one more attempt. -/
theorem Paced.sends_again (h : Paced w p) {f : InFlight} (hp : w.tasks p = .binding goal a left)
    (hf : goal.inFlight = some f) (ha : a ∈ w.bound) (htodo : (goal.bound a).todo = none) {t : Activity} :
    (goal.bound a).Paced ((w.setNextNonce p
      (if goal = .execute then w.nextNonce p + 1 else w.nextNonce p)).setTask p t) p := by
  obtain ⟨hslot,ho⟩ := h.again goal a left hp f hf
  have hin : f ∈ (w.tasks p).inFlight := by
    rw [hp]
    exact hf
  have hbound : (goal.bound a).nonce = f.nonce ∧ (goal.bound a).last = a ∧
      (goal.bound a).todo = f.todo ∧ goal ≠ .execute := by
    cases goal with
    | execute => cases hf
    | replace g =>
      cases hf
      exact ⟨rfl,rfl,rfl,fun hx => by cases hx⟩
    | cancel g =>
      cases hf
      exact ⟨rfl,rfl,rfl,fun hx => by cases hx⟩
  obtain ⟨hnonce,hlast,hsame,hexec⟩ := hbound
  have hpace := h.flight f hin (hsame.symm.trans htodo)
  refine ⟨?_,hpace.row,?_,?_⟩
  · rw [hlast,hnonce]
    exact hslot
  · rw [World.setNextNonce_self,if_neg hexec,hnonce]
    exact hpace.next
  · rw [hnonce,hlast]
    exact .inl ⟨(hpace.place.resolve_right (h.not_after (ho ha))).1,ho ha⟩

/-- The nonce in flight once the bind is answered. -/
theorem Numbered.sends (h : Numbered w) (hp : w.tasks p = .binding goal a left)
    (ha : a ∈ w.bound) :
    Numbered ((w.setNextNonce p (if goal = .execute then w.nextNonce p + 1 else w.nextNonce p)).setTask
      p (.sending (goal.bound a))) := by
  have hpace := h.paced p
  refine h.place (Paced.of_free hpace.dense ?_ ?_ ?_ ?_ ?_) rfl
  · rw [World.setTask_tasks]
    rfl
  · rw [World.setTask_tasks]
    trivial
  · rw [World.setTask_tasks]
    exact fun hr => by cases hr
  · rw [World.setTask_tasks]
    rintro f ⟨⟩ htodo
    cases goal with
    | execute =>
      have hfirst := hpace.first a left hp
      have hnonce : a.nonce = w.nextNonce p := congrArg Slot.nonce hfirst.slot
      obtain ⟨hafter,howner⟩ := hfirst.stored ha
      refine ⟨?_,hfirst.row,?_,.inl ⟨?_,?_⟩⟩
      · show a.slot = p.slot a.nonce
        rw [hnonce]
        exact hfirst.slot
      · rw [World.setNextNonce_self,if_pos rfl]
        exact congrArg (· + 1) hnonce.symm
      · show (w.nonces p).after = a.nonce + 1
        rw [hnonce]
        exact hafter
      · show w.store.slotOwnerId (p.slot a.nonce) = some a.owner.id
        rw [hnonce,← hfirst.slot]
        exact howner
    | replace f => exact hpace.sends_again hp rfl ha htodo
    | cancel f => exact hpace.sends_again hp rfl ha htodo
  · rw [World.setTask_tasks]
    rintro f ⟨⟩ hfr
    cases goal with
    | execute => rfl
    | replace f => exact hpace.fresh f (by rw [hp]; rfl) hfr
    | cancel f => exact hpace.fresh f (by rw [hp]; rfl) hfr

/-- A nonce in flight whose new attempt was not stored goes on with the others. -/
theorem Numbered.polls_on (h : Numbered w) {f : InFlight} (hp : w.tasks p = .binding goal a left)
    (hf : goal.inFlight = some f) (e : StoreError) : Numbered (w.setTask p (goal.notBound e)) := by
  have hin : f ∈ (w.tasks p).inFlight := by
    rw [hp]
    exact hf
  have hready : (goal.notBound e).ready = true → False := by
    intro hr
    cases goal with
    | execute => cases hf
    | replace g =>
      simp only [Goal.notBound] at hr
      split at hr <;> cases hr
    | cancel g =>
      simp only [Goal.notBound] at hr
      split at hr <;> cases hr
  rcases goal.notBound_cases e with hr | ⟨f',hf',hfrom⟩
  · exact h.goes hin (hr.from f) fun hx => (hready hx).elim
  · obtain rfl : f = f' := Option.some.inj (hf.symm.trans hf')
    exact h.goes hin hfrom fun hx => (hready hx).elim

/-- A bind that failed has stored nothing, so its nonce is still the next one. -/
theorem Numbered.notBound (h : Numbered w) (hp : w.tasks p = .binding goal a left)
    (ha : a ∉ w.bound) (e : StoreError) : Numbered (w.setTask p (goal.notBound e)) := by
  have hpace := h.paced p
  cases goal with
  | execute =>
    have hfirst := hpace.first a left hp
    simp only [Goal.notBound]
    split
    · refine h.setTask (hpace.waits rfl trivial rfl rfl) ?_
      exact fun a ha => by cases ha
    · refine h.setTask (.rests hpace.dense ?_ ⟨hfirst.row,hfirst.unstored ha⟩)
        (fun a ha => by cases ha)
      rw [World.setTask_tasks]
      exact Activity.rests_idle
  | replace f => exact h.polls_on hp rfl e
  | cancel f => exact h.polls_on hp rfl e

theorem Numbered.retries (h : Numbered w) (hp : w.tasks p = .binding goal a left) (n : Nat) :
    Numbered (w.setTask p (.binding goal a n)) := by
  have hpace := h.paced p
  have hin : (w.tasks p).inFlight = goal.inFlight := by
    rw [hp]
    rfl
  refine h.setTask ⟨hpace.dense,?_,?_,?_,?_,?_,?_⟩ ?_
  · rw [World.setTask_tasks]
    exact fun hr => by cases hr
  · rw [World.setTask_tasks]
    rintro a' left' ⟨⟩
    exact (hpace.first a left hp).same (.setTask w p _ p)
  · rw [World.setTask_tasks]
    rintro goal' a' left' ⟨⟩
    exact hpace.again goal a left hp
  · rw [World.setTask_tasks]
    intro f hf htodo
    exact (hpace.flight f (hin ▸ hf) htodo).same (.setTask w p _ p)
  · rw [World.setTask_tasks]
    trivial
  · rw [World.setTask_tasks]
    exact fun f hf => hpace.fresh f (hin ▸ hf)
  · rintro a' ⟨⟩
    refine h.pending p a ?_
    rw [hp]
    rfl

/-- One round of the bind loop. -/
theorem Numbered.round (h : Numbered w) (hp : w.tasks p = .binding goal a left) {r : Round}
    (hagree : Event.Agrees w (.task p (.round r))) : Numbered (w.round p goal a left r) := by
  have hw := h.written hp r
  have hp' : (w.written a goal.kind r).tasks p = .binding goal a left := hp
  simp only [Event.Agrees,hp,Activity.BindAgrees] at hagree
  unfold World.round
  dsimp only
  split
  · next hend =>
    rw [hend] at hagree
    exact hw.sends hp' ((hagree true rfl).mp rfl)
  · next e hend =>
    rw [hend] at hagree
    refine hw.notBound hp' (fun hmem => ?_) e
    cases (hagree false rfl).mpr hmem
  · next e hend =>
    rw [hend] at hagree
    split
    · refine hw.notBound hp' (fun hmem => ?_) e
      cases (hagree false rfl).mpr hmem
    · next n => exact hw.retries hp' n

/-- A new first attempt stands at the next nonce. -/
theorem Numbered.signs_first (h : Numbered w) (hp : w.tasks p = .idle) (owner : SlotOwner)
    {g : Signature} (hid : g.id ∉ w.signed) (left : Nat) :
    Numbered ({ w with signed := g.id :: w.signed }.setTask p
      (.binding .execute (sign p owner (w.nextNonce p) owner.purpose g) left)) := by
  have hpace := h.paced p
  obtain ⟨hrow,hnext⟩ := hpace.ready (by rw [hp]; rfl)
  have hnew : sign p owner (w.nextNonce p) owner.purpose g ∉ w.bound :=
    fun hmem => hid (h.bound _ hmem)
  refine h.at (fun q hq => .of_store rfl rfl rfl rfl) ?_ ⟨hpace.dense,?_,?_,?_,?_,?_,?_⟩ ?_ ?_ ?_
  · intro q hq
    rw [World.tasks_setTask,if_neg hq]
  · rw [World.setTask_tasks]
    exact fun hr => by cases hr
  · rw [World.setTask_tasks]
    rintro a' left' ⟨⟩
    exact ⟨rfl,hrow,fun hmem => absurd hmem hnew,fun _ => hnext⟩
  · rw [World.setTask_tasks]
    rintro goal a' left' ⟨⟩ f hf
    cases hf
  · rw [World.setTask_tasks]
    exact fun f hf => by cases hf
  · rw [World.setTask_tasks]
    trivial
  · rw [World.setTask_tasks]
    exact fun f hf => by cases hf
  · exact fun b hb => List.mem_cons_of_mem _ (h.bound b hb)
  · exact fun i hi => List.mem_cons_of_mem _ hi
  · rw [World.setTask_tasks]
    rintro a' ⟨⟩
    exact List.mem_cons_self

/-- A further attempt stands at the nonce in flight. -/
theorem Numbered.signs_again (h : Numbered w) {f : InFlight} (hf : f ∈ (w.tasks p).inFlight)
    (hgoal : goal.inFlight = some f) {signed : List Uuid} (hid : a.id ∉ w.signed)
    (hsub : ∀ i ∈ w.signed, i ∈ signed) (hnew : a.id ∈ signed) (hslot : a.slot = p.slot f.nonce) :
    Numbered ({ w with signed := signed }.setTask p (.binding goal a left)) := by
  have hpace := h.paced p
  refine h.at (fun q hq => .of_store rfl rfl rfl rfl) ?_ ⟨hpace.dense,?_,?_,?_,?_,?_,?_⟩ ?_ hsub ?_
  · intro q hq
    rw [World.tasks_setTask,if_neg hq]
  · rw [World.setTask_tasks]
    exact fun hr => by cases hr
  · rw [World.setTask_tasks]
    rintro a' left' ⟨⟩
    cases hgoal
  · rw [World.setTask_tasks]
    rintro goal' a' left' ⟨⟩ f' hf'
    obtain rfl : f = f' := Option.some.inj (hgoal.symm.trans hf')
    exact ⟨hslot,fun hmem => absurd (h.bound a hmem) hid⟩
  · rw [World.setTask_tasks]
    intro f' hf' htodo
    obtain rfl : f = f' := Option.some.inj (hgoal.symm.trans hf')
    exact (hpace.flight f hf htodo).same (.of_store rfl rfl rfl rfl)
  · rw [World.setTask_tasks]
    trivial
  · rw [World.setTask_tasks]
    intro f' hf' hfr
    obtain rfl : f = f' := Option.some.inj (hgoal.symm.trans hf')
    exact hpace.fresh f hf hfr
  · exact fun b hb => hsub _ (h.bound b hb)
  · rw [World.setTask_tasks]
    rintro a' ⟨⟩
    exact hnew

theorem Numbered.resigns (h : Numbered w) {f : InFlight} {t : Activity}
    {signed : Option Signature} (hf : f ∈ (w.tasks p).inFlight) (hgoal : goal.inFlight = some f)
    (hid : ∀ g ∈ signed, g.id ∉ w.signed) (ht : f.Resigns p goal signed t) :
    Numbered (w.sign p t signed) := by
  have hsub : ∀ i ∈ w.signed, i ∈ signed.elim w.signed fun g => g.id :: w.signed := by
    intro i hi
    cases signed with
    | none => exact hi
    | some g => exact List.mem_cons_of_mem _ hi
  rcases ht with rfl | ⟨g,rfl,purpose,g',hg,rfl⟩
  · have hwider : Numbered { w with signed := signed.elim w.signed fun g => g.id :: w.signed } := by
      refine h.at (p := p) (fun q hq => .of_store rfl rfl rfl rfl) (fun q hq => rfl) ?_ ?_ hsub ?_
      · exact (h.paced p).same (.of_store rfl rfl rfl rfl) rfl
      · exact fun b hb => hsub _ (h.bound b hb)
      · exact fun a ha => hsub _ (h.pending p a ha)
    exact hwider.goes hf (.polling (.rfl' f)) fun hr => by cases hr
  · refine h.signs_again hf hgoal ?_ hsub ?_ rfl
    · show g'.id ∉ w.signed
      rw [hg]
      exact hid g rfl
    · show g'.id ∈ g.id :: w.signed
      rw [hg]
      exact List.mem_cons_self

end Binding

section Voiding

/-! ## Voids -/

variable {w : World} {p q : PairKey} {f : InFlight} {mode : VoidMode}
    {disposition : VoidDisposition} {s : Store}

/-- A void changes no slot but that of its attempt, and no owner of a slot. -/
theorem SameView.void {a : Attempt} {n now : Nat}
    (hv : voidBinding w.store w.epoch a mode disposition now = .ok s)
    (hslot : a.slot = p.slot n) (hq : mode = .nonceUnused → q ≠ p) :
    SameView w { w with store := s } q := by
  refine ⟨World.nonces_void hv hslot hq,?_,?_,rfl,fun a n ha => Iff.rfl⟩
  · intro m i hi
    show s.slotOwnerId (q.slot m) = some i
    rw [Store.slotOwnerId] at hi ⊢
    obtain ⟨x,hx,hxi⟩ := Option.map_eq_some_iff.mp hi
    have hxs : x.slot = q.slot m := by simpa using List.find?_some hx
    have hmem : x ∈ s.nonceSlots.rows := by
      rw [(voidBinding_spec hv).slots,List.mem_filter]
      refine ⟨List.mem_of_find?_eq_some hx,?_⟩
      by_cases hm : mode = .nonceUnused
      · simp [hxs,hslot,PairKey.slot_inj,hq hm]
      · simp [hm]
    rw [Keyed.find_of_mem s.nonceSlots hmem hxs,Option.map_some,hxi]
  · intro hrow
    have hpairs := voidBinding_pairs hv
    split at hpairs
    · exact .of_update _ (PairRow.lower a.nonce) (fun _ => rfl) hpairs hrow
    · obtain ⟨r,hr,hk⟩ := hrow
      exact ⟨r,hpairs ▸ hr,hk⟩

/-- The nonce in flight is voided: when it was unused it is the next one again, whether or
not the task hears of it. -/
theorem Numbered.voids (h : Numbered w) (hp : w.tasks p = .voiding f mode disposition) {now : Nat}
    (hv : voidBinding w.store w.epoch f.last mode disposition now = .ok s) :
    Numbered { w with store := s } ∧
      (mode = .nonceUnused → (({ w with store := s } : World).nonces p).after = f.nonce) := by
  have hpace := h.paced p
  have hf : f ∈ (w.tasks p).inFlight := by
    rw [hp]
    rfl
  have hfresh : f.neverAccepted = true := by
    have hon := hpace.honest
    rw [hp] at hon
    exact hon
  have hflight := hpace.flight f hf (hpace.fresh f hf hfresh)
  have hother : ∀ q, (mode = .nonceUnused → q ≠ p) → SameView w { w with store := s } q :=
    fun q hq => .void hv hflight.last hq
  by_cases hm : mode = .nonceUnused
  · subst hm
    have howner : w.store.slotOwnerId (p.slot f.nonce) = some f.last.owner.id ∨
        f.nonce ∉ (w.nonces p).taken :=
      hflight.place.imp (fun hx => hx.2) fun ha ht => (ha ▸ hpace.dense.below f.nonce ht).false
    have hnonces := World.nonces_release hv hflight.last howner
    have hreleased : (({ w with store := s } : World).nonces p).Dense ∧
        (({ w with store := s } : World).nonces p).after = f.nonce := by
      rw [hnonces]
      rcases hflight.place with ⟨ha,-⟩ | ha
      · exact ⟨hpace.dense.release ha,Numbering.release_after ha⟩
      · rw [hpace.dense.release_after_eq ha]
        exact ⟨hpace.dense,ha⟩
    have hrow : s.HasPair p := by
      have hpairs := voidBinding_pairs hv
      rw [if_pos rfl] at hpairs
      exact .of_update _ (PairRow.lower f.last.nonce) (fun _ => rfl) hpairs hflight.row
    refine ⟨h.at (fun q hq => hother q fun _ => hq) (fun q hq => rfl) ?_ h.bound (fun i hi => hi)
      (h.pending p),fun _ => hreleased.2⟩
    refine Paced.of_free hreleased.1 ?_ hpace.honest ?_ ?_ hpace.fresh
    · show (w.tasks p).pending = none
      rw [hp]
      rfl
    · show (w.tasks p).ready = true → _
      rw [hp]
      exact fun hr => by cases hr
    · show ∀ f' ∈ (w.tasks p).inFlight, _
      rw [hp]
      rintro f' ⟨⟩ htodo
      exact ⟨hflight.last,hrow,hflight.next,.inr hreleased.2⟩
  · refine ⟨h.at (p := p) (fun q hq => hother q fun hx => absurd hx hm) (fun q hq => rfl) ?_
      h.bound (fun i hi => hi) (h.pending p),fun hx => absurd hx hm⟩
    exact hpace.same (hother p fun hx => absurd hx hm) rfl

/-- A void that is not answered stops the task or keeps the nonce in flight. -/
theorem World.void_cases (w : World) (p : PairKey) (f : InFlight) (mode : VoidMode)
    (disposition : VoidDisposition) (call : Call) (now : Nat) :
    (∃ s t, (s = w.store ∨ voidBinding w.store w.epoch f.last mode disposition now = .ok s) ∧
      (t = .down ∨ t = .polling f) ∧
      w.void p f mode disposition call now = { w with store := s }.setTask p t) ∨
    ∃ s, call = .answered ∧ voidBinding w.store w.epoch f.last mode disposition now = .ok s ∧
      w.void p f mode disposition call now =
        if mode = .nonceUnused then ({ w with store := s }.setNextNonce p f.nonce).setTask p f.done
        else { w with store := s }.setTask p (if f.todo.isNone then .down else f.done) := by
  unfold World.void
  dsimp only
  split
  · next hok =>
    right
    cases call with
    | answered =>
      cases hv : voidBinding w.store w.epoch f.last mode disposition now with
      | ok s => exact ⟨s,rfl,rfl,rfl⟩
      | error e =>
        rw [hv] at hok
        cases hok
    | lost e => cases hok
    | refused e => cases hok
  · left
    refine ⟨_,.down,?_,.inl rfl,rfl⟩
    exact (call.answer_store _ _).imp (fun hx => hx) fun ⟨s,hv,hs⟩ => hs.symm ▸ hv
  · left
    refine ⟨_,.polling f,?_,.inr rfl,rfl⟩
    exact (call.answer_store _ _).imp (fun hx => hx) fun ⟨s,hv,hs⟩ => hs.symm ▸ hv

theorem Numbered.void (h : Numbered w) (hp : w.tasks p = .voiding f mode disposition)
    (call : Call) (now : Nat) : Numbered (w.void p f mode disposition call now) := by
  have hpace := h.paced p
  have hf : f ∈ (w.tasks p).inFlight := by
    rw [hp]
    rfl
  have hfresh : f.neverAccepted = true := by
    have hon := hpace.honest
    rw [hp] at hon
    exact hon
  have htodo := hpace.fresh f hf hfresh
  rcases w.void_cases p f mode disposition call now with ⟨s,t,hs,ht,heq⟩ | ⟨s,-,hv,heq⟩
  · rw [heq]
    have hn : Numbered { w with store := s } := by
      rcases hs with rfl | hv
      · exact h
      · exact (h.voids hp hv).1
    rcases ht with rfl | rfl
    · exact hn.goes hf (Activity.rests_down.from f) fun hr => by cases hr
    · exact hn.goes hf (.polling (.rfl' f)) fun hr => by cases hr
  · obtain ⟨hn,hafter⟩ := h.voids hp hv
    rw [heq]
    split
    · next hm =>
      have hdone : f.done = .idle := by
        unfold InFlight.done
        rw [htodo]
      have hrow := (hn.paced p).flight f hf htodo
      rw [hdone]
      refine hn.place (.rests (hn.paced p).dense ?_ ?_) rfl
      · rw [World.setTask_tasks]
        exact Activity.rests_idle
      · rw [World.setNextNonce_self]
        have hnow := (hn.paced p).dense.next_after
        rw [hafter hm] at hnow
        exact ⟨hrow.row,hnow⟩
    · rw [htodo]
      exact hn.goes hf (Activity.rests_down.from f) fun hr => by cases hr

end Voiding

section Recovering

/-! ## Recovery -/

variable {w : World} {p q : PairKey}

theorem Numbered.waits (h : Numbered w) {t : Activity} (hfree : t.pending = none) (hon : t.Honest)
    (hin : t.inFlight = none) (hready : t.ready = false) : Numbered (w.setTask p t) := by
  refine h.setTask ((h.paced p).waits hfree hon hin hready) ?_
  intro a ha
  rw [hfree] at ha
  cases ha

theorem Numbered.resume (h : Numbered w) (chain : ChainKind) (group : List Attempt)
    (todo : List (List Attempt)) : Numbered (w.setTask p (resume chain group todo)) := by
  rcases resume_cases chain group todo with ht | ⟨f,ht,hfr,htodo,-⟩
  · rw [ht]
    exact h.waits rfl trivial rfl rfl
  · rw [ht]
    refine h.setTask (Paced.of_free (h.paced p).dense ?_ ?_ ?_ ?_ ?_) (fun a ha => by cases ha)
    · rw [World.setTask_tasks]
      rfl
    · rw [World.setTask_tasks]
      trivial
    · rw [World.setTask_tasks]
      exact fun hr => by cases hr
    · rw [World.setTask_tasks]
      rintro f' ⟨⟩ hnone
      cases htodo.symm.trans hnone
    · rw [World.setTask_tasks]
      rintro f' ⟨⟩ hx
      cases hfr.symm.trans hx

theorem Numbered.of_kept {s : Store} (h : Numbered w) (hs : s.nonceSlots = w.store.nonceSlots)
    (hp : s.pairs = w.store.pairs) : Numbered { w with store := s } :=
  ⟨fun q => (h.paced q).same (.of_kept hs hp q) rfl,h.bound,h.pending⟩

theorem Numbered.recover (h : Numbered w) (p : PairKey) : Numbered (w.recover p) := by
  unfold World.recover
  split
  · exact h.waits rfl trivial rfl rfl
  · exact h

theorem Numbered.recoverNext (h : Numbered w) (chain : ChainKind) (group : List Attempt)
    (todo : List (List Attempt)) (l : Look) : Numbered (w.recoverNext chain p group todo l) := by
  unfold World.recoverNext
  split
  · exact h.resume chain group todo
  · next a _ =>
    have hdem : Numbered { w with store := (demoteInclusion w.store a).2 } :=
      h.of_kept (demoteInclusion_kept w.store a).slots (demoteInclusion_pairs w.store a)
    cases l with
    | receipt => exact h.waits rfl trivial rfl rfl
    | failed => exact h.waits rfl trivial rfl rfl
    | gone call =>
      cases call with
      | refused e => exact h.waits rfl trivial rfl rfl
      | lost e => exact hdem.waits rfl trivial rfl rfl
      | answered => exact hdem.resume chain group todo

/-- `ensure_pair` adds a row without a mark, or nothing. -/
theorem ensurePair_nonceHwm (s : Store) (p q : PairKey) :
    (ensurePair s p).nonceHwm q = s.nonceHwm q := by
  unfold Store.nonceHwm
  have hfind := Keyed.find_upsert s.pairs ⟨p,none⟩ (fun r => r) (fun _ => rfl) q
  rw [show (ensurePair s p).pairs = s.pairs.upsert ⟨p,none⟩ (fun r => r) (fun _ => rfl) from rfl,
    hfind]
  split
  · cases s.pairs.rows.find? fun r => r.key = q <;> rfl
  · rfl

theorem ensurePair_hasPair (s : Store) (p : PairKey) : (ensurePair s p).HasPair p :=
  Keyed.upsert_mem s.pairs ⟨p,none⟩ (fun r => r) fun _ => rfl

theorem Store.HasPair.ensurePair {s : Store} (h : s.HasPair q) (p : PairKey) :
    (ensurePair s p).HasPair q := by
  obtain ⟨r,hr,rfl⟩ := h
  by_cases hp : r.key = p
  · rw [hp]
    exact ensurePair_hasPair s p
  · have hfind := Keyed.find_upsert s.pairs ⟨p,none⟩ (fun r => r) (fun _ => rfl) r.key
    rw [if_neg hp,Keyed.find_of_mem s.pairs hr rfl] at hfind
    exact ⟨r,List.mem_of_find?_eq_some hfind,rfl⟩

theorem Numbered.ensures (h : Numbered w) (p : PairKey) :
    Numbered { w with store := ensurePair w.store p } := by
  refine ⟨fun q => (h.paced q).same ⟨?_,fun n i hi => hi,?_,rfl,fun a n ha => Iff.rfl⟩ rfl,h.bound,
    h.pending⟩
  · exact Numbering.ext rfl rfl (ensurePair_nonceHwm w.store p q)
  · exact fun hq => hq.ensurePair p

/-- Recovery ends at the next nonce: past the mark, and past what the chain has used. -/
theorem Numbered.recoverDone (h : Numbered w) {n : Nat} (hn : ∀ m < n, w.mined (p.slot m) ≠ none) :
    Numbered (({ w with store := ensurePair w.store p }.setNextNonce p
      ((ensurePair w.store p).nextNonce p n)).setTask p .idle) := by
  have hs := h.ensures p
  refine hs.place (.rests (hs.paced p).dense ?_ ?_) rfl
  · rw [World.setTask_tasks]
    exact Activity.rests_idle
  · rw [World.setNextNonce_self]
    exact ⟨ensurePair_hasPair w.store p,(hs.paced p).dense.next_max hn⟩

end Recovering

section Steps

/-! ## One event, and every run -/

variable {w : World} {p : PairKey}

/-- What changes neither nonces nor tasks. -/
theorem Numbered.same {w' : World} (h : Numbered w) (hv : ∀ q, SameView w w' q)
    (ht : w'.tasks = w.tasks) (hb : w'.bound = w.bound) (hs : w'.signed = w.signed) :
    Numbered w' := by
  refine ⟨fun q => (h.paced q).same (hv q) (congrFun ht q),?_,?_⟩
  · rw [hb,hs]
    exact h.bound
  · rw [ht,hs]
    exact h.pending

/-- The nonce was mined when one of its receipts is found. -/
theorem Numbered.receipt (h : Numbered w) {f : InFlight} (hf : f ∈ (w.tasks p).inFlight)
    (htodo : f.todo = none) {hash : B256} (hm : w.mined f.last.slot = some (.ours hash)) :
    w.mined (p.slot f.nonce) ≠ none := by
  rw [← ((h.paced p).flight f hf htodo).last,hm]
  exact fun hx => by cases hx

theorem Numbered.answer (h : Numbered w) {f : InFlight} (hp : w.tasks p = .sending f)
    {a : Answer} (ha : a.Possible w f) (chain : ChainKind) : Numbered (w.answer chain p f a) := by
  have hf : f ∈ (w.tasks p).inFlight := by
    rw [hp]
    rfl
  have hw : Numbered { w with dead := a.kills f.last.txHash ++ w.dead } :=
    h.same (fun q => .of_store rfl rfl rfl rfl) rfl rfl rfl
  refine hw.goes hf (f.onAnswer_from chain a) fun hr => ?_
  obtain ⟨htodo,hash,usable,rfl⟩ := InFlight.onAnswer_ready hr
  exact ⟨htodo,h.receipt hf htodo ha.2⟩

theorem Numbered.turn (h : Numbered w) {chains : ChainId → ChainKind} {i : Input}
    (hi : i.Possible w p) (hagree : Event.Agrees w (.task p i)) :
    Numbered (w.turn chains p i) := by
  have htakes := w.turn_takes chains p i
  generalize w.turn chains p i = w' at htakes ⊢
  cases htakes with
  | unfit => exact h
  | @execute owner signed hp =>
    cases signed with
    | ok g => exact h.signs_first hp owner (hi g rfl) 5
    | error e =>
      have hready := (h.paced p).ready (by rw [hp]; rfl)
      refine h.setTask (.rests (h.paced p).dense ?_ hready) (fun a ha => by cases ha)
      rw [World.setTask_tasks]
      exact Activity.rests_signerUnavailable
  | round hp => exact h.round hp hagree
  | deliver | arrive => exact h.same (fun q => .of_store rfl rfl rfl rfl) rfl rfl rfl
  | @answer a f hp => exact h.answer hp (hi f (by rw [hp]; rfl)) _
  | @lookBack found f fresh parks hp =>
    have hf : f ∈ (w.tasks p).inFlight := by
      rw [hp]
      rfl
    have hon := (h.paced p).honest
    rw [hp] at hon
    refine h.goes hf (f.onNonceTooLow_from parks found hon) fun hr => ?_
    obtain ⟨htodo,hash,rfl⟩ := InFlight.onNonceTooLow_ready hr
    exact ⟨htodo,h.receipt hf htodo (hi f hf hash rfl)⟩
  | @poll found f hp =>
    have hf : f ∈ (w.tasks p).inFlight := by
      rw [hp]
      rfl
    refine h.goes hf (f.poll_from found) fun hr => ?_
    obtain ⟨htodo,hash,rfl⟩ := InFlight.poll_ready hr
    exact ⟨htodo,h.receipt hf htodo (hi f hf hash rfl)⟩
  | @escalate d f hp hf =>
    refine h.goes (by rw [hp]; rfl) (f.escalate_from _ d) fun hr => ?_
    rw [f.escalate_ready] at hr
    cases hr
  | @replace signed f hp =>
    exact h.resigns (by rw [hp]; rfl) rfl hi (f.replace_resigns _ p signed)
  | @cancel signed f hp => exact h.resigns (by rw [hp]; rfl) rfl hi (f.cancel_resigns p signed)
  | @void call now f mode disposition hp => exact h.void hp call now
  | recover hp => exact h.recover p
  | recoverNext hp => exact h.recoverNext _ _ _ _
  | recoverFailed hp => exact (h.ensures p).waits rfl trivial rfl rfl
  | recoverDone hp => exact h.recoverDone hagree
  | resume hp =>
    have hready := (h.paced p).ready (by rw [hp]; rfl)
    refine h.setTask (.rests (h.paced p).dense ?_ hready) (fun a ha => by cases ha)
    rw [World.setTask_tasks]
    exact Activity.rests_idle
  | stop hp => exact h.waits rfl trivial rfl rfl

/-- A mined nonce is one more that the chain has used. -/
theorem Numbered.mine (h : Numbered w) (k : Slot) (m : Mined) :
    Numbered { w with mined := Function.update w.mined k (some m) } := by
  have hnonces : ∀ q, ({ w with mined := Function.update w.mined k (some m) } : World).nonces q =
      (w.nonces q).pass { n | q.slot n = k } := by
    intro q
    refine Numbering.ext rfl (Set.ext fun n => ?_) rfl
    by_cases hk : q.slot n = k
    · simp [World.nonces,Numbering.pass,hk]
    · simp [World.nonces,Numbering.pass,hk]
  refine ⟨fun q => ?_,h.bound,h.pending⟩
  have hq := h.paced q
  refine ⟨?_,?_,?_,hq.again,?_,hq.honest,hq.fresh⟩
  · rw [hnonces q]
    exact hq.dense.pass _
  · intro hr
    rw [hnonces q]
    exact ⟨(hq.ready hr).1,(hq.ready hr).2.pass _⟩
  · intro a left hp
    have ha := hq.first a left hp
    refine ⟨ha.slot,ha.row,ha.stored,fun hno => ?_⟩
    rw [hnonces q]
    exact (ha.unstored hno).pass _
  · intro f hf htodo
    have hpace := hq.flight f hf htodo
    exact ⟨hpace.last,hpace.row,hpace.next,hpace.place⟩

/-- A new process has only what is stored. -/
theorem Numbered.restart (h : Numbered w) (chains : ChainId → ChainKind) :
    Numbered (w.step chains .restart) := by
  refine ⟨fun q => Paced.of_free (h.paced q).dense rfl trivial ?_ ?_ ?_,h.bound,?_⟩
  · exact fun hr => by cases hr
  · exact fun f hf => by cases hf
  · exact fun f hf => by cases hf
  · exact fun q a ha => by cases ha

theorem Numbered.step (h : Numbered w) {chains : ChainId → ChainKind} {e : Event}
    (he : e.Possible w) (hagree : e.Agrees w) : Numbered (w.step chains e) := by
  cases e with
  | op o =>
    have hun := Op.Possible.unfenced he
    exact h.of_kept (Op.unfenced_kept hun).slots (Op.unfenced_pairs hun w.store)
  | mine k m => exact h.mine k m
  | restart => exact h.restart chains
  | task p i => exact h.turn he hagree

theorem Numbered.init : Numbered World.init := by
  refine ⟨fun q => Paced.of_free ⟨?_,?_⟩ rfl trivial ?_ ?_ ?_,?_,?_⟩
  · rintro n ⟨x,hx,-⟩
    cases hx
  · intro n hn
    exact absurd hn (Nat.not_lt_zero n)
  · exact fun hr => by cases hr
  · exact fun f hf => by cases hf
  · exact fun f hf => by cases hf
  · exact fun b hb => by cases hb
  · exact fun q a ha => by cases ha

end Steps

/-- The driver, with answers that agree with the store and the chain. -/
def agreeingDriver (chains : ChainId → ChainKind) : Machine World Event :=
  (driver chains).restrict fun w e => e.Agrees w

instance (chains : ChainId → ChainKind) (w : World) (e : Event) :
    Decidable ((agreeingDriver chains).allowed w e) :=
  inferInstanceAs (Decidable (e.Possible w ∧ e.Agrees w))

theorem Numbered.reaches {chains : ChainId → ChainKind} {w : World}
    (h : (agreeingDriver chains).Reaches World.init w) : Numbered w :=
  h.invariant .init fun _ _ hs he => hs.step he.1 he.2

/-- A nonce of `p` is used when it has a slot or was mined. -/
def World.Used (w : World) (p : PairKey) (n : Nat) : Prop :=
  (∃ x ∈ w.store.nonceSlots.rows, x.slot = p.slot n) ∨ w.mined (p.slot n) ≠ none

/-- The nonce sequence of `p`: slots stay below the mark; a task about to execute stands
above all slots, with nothing unused below it, and a first bind finds its slot free; a
released nonce is the next one for store and task alike; and no slot lies above an
unused nonce. -/
structure InSequence (chains : ChainId → ChainKind) (w : World) (p : PairKey) : Prop where
  marked : ∀ x ∈ w.store.nonceSlots.rows, ∀ n, x.slot = p.slot n →
    ∃ k, w.store.nonceHwm p = some k ∧ n ≤ k
  above : w.tasks p = .idle → ∀ x ∈ w.store.nonceSlots.rows, ∀ n, x.slot = p.slot n →
    n < w.nextNonce p
  lowest : w.tasks p = .idle → ∀ m < w.nextNonce p, w.Used p m
  free : ∀ a left, w.tasks p = .binding .execute a left → a ∉ w.bound →
    a.slot = p.slot (w.nextNonce p) ∧ ∀ x ∈ w.store.nonceSlots.rows, x.slot ≠ a.slot
  released : ∀ f disposition now s, w.tasks p = .voiding f .nonceUnused disposition →
    voidBinding w.store w.epoch f.last .nonceUnused disposition now = .ok s →
      (∀ chainNonce, s.nextNonce p chainNonce = max chainNonce f.nonce) ∧
      (∀ x ∈ s.nonceSlots.rows, ∀ n, x.slot = p.slot n → n < f.nonce) ∧
      (w.step chains (.task p (.void .answered now))).tasks p = .idle ∧
      (w.step chains (.task p (.void .answered now))).nextNonce p = f.nonce
  gapless : ∀ x ∈ w.store.nonceSlots.rows, ∀ n, x.slot = p.slot n → ∀ m < n, w.Used p m

theorem nonces_in_sequence {chains : ChainId → ChainKind} {w : World}
    (h : (agreeingDriver chains).Reaches World.init w) (p : PairKey) : InSequence chains w p := by
  have hn := Numbered.reaches h
  have hp := hn.paced p
  refine ⟨?_,?_,?_,?_,?_,?_⟩
  · intro x hx n hxs
    have hlt := hp.dense.below n ⟨x,hx,hxs⟩
    cases hm : w.store.nonceHwm p with
    | none =>
      rw [Numbering.after,show (w.nonces p).mark = none from hm] at hlt
      exact absurd hlt (Nat.not_lt_zero n)
    | some k =>
      rw [Numbering.after,show (w.nonces p).mark = some k from hm,Option.elim_some] at hlt
      exact ⟨k,rfl,Nat.lt_succ_iff.mp hlt⟩
  · intro hidle x hx n hxs
    exact hp.dense.lt_next (hp.ready (by rw [hidle]; rfl)).2 ⟨x,hx,hxs⟩
  · intro hidle m hm
    exact (hp.ready (by rw [hidle]; rfl)).2.filled m hm
  · intro a left hb hnew
    have ha := hp.first a left hb
    refine ⟨ha.slot,fun x hx hxs => ?_⟩
    exact (hp.dense.lt_next (ha.unstored hnew) ⟨x,hx,hxs.trans ha.slot⟩).false
  · intro f disposition now s hvoid hv
    obtain ⟨hs,hafter⟩ := hn.voids hvoid hv
    have hfresh : f.neverAccepted = true := by
      have hon := hp.honest
      rw [hvoid] at hon
      exact hon
    have hdone : f.done = .idle := by
      unfold InFlight.done
      rw [hp.fresh f (by rw [hvoid]; rfl) hfresh]
    refine ⟨?_,?_,?_⟩
    · intro chainNonce
      rw [← hafter rfl]
      exact World.nextNonce_eq { w with store := s } p chainNonce
    · intro x hx n hxs
      rw [← hafter rfl]
      exact (hs.paced p).dense.below n ⟨x,hx,hxs⟩
    · simp only [World.step,World.turn,hvoid,World.void,hv,Call.answer,hdone,if_true]
      exact ⟨World.setTask_tasks _ p _,World.setNextNonce_self _ p _ _⟩
  · intro x hx n hxs m hm
    exact hp.dense.filled m (hm.trans (hp.dense.below n ⟨x,hx,hxs⟩))

/-- Job 1 is rejected at nonce 0, which is released; job 2 takes it although the first
answer is lost, and is mined; job 3 is bound at nonce 1 when the process dies, and the next
one drives it on. -/
def releasedNonceRun : List Event :=
  let p := Sample.pair
  Sample.boot ++ [.op (.insertJob 1 Sample.request),.op (.insertJob 2 Sample.request),
    .op (.insertJob 3 Sample.request),
    .task p (.execute (.job 1) (.ok (Sample.signature 3 3))),.task p Sample.round,
    .task p (.answer (.error .deterministic "intrinsic gas too low")),.task p (.void .answered 0),
    .task p (.execute (.job 2) (.ok (Sample.signature 4 4))),
    .task p (.round ⟨.lost ⟨.db .io,StoreError.io_transient⟩,.failed⟩),
    .task p (.round ⟨.refused (.db .io),.answered⟩),.task p .deliver,
    .mine (p.slot 0) (.ours 4),.task p (.answer .accepted),.task p (.poll (some 4)),
    .op (.settleInclusion (Sample.attempt 4 0 .job (.job 2)) (Sample.inclusion 4 10 100) true),
    .task p (.execute (.job 3) (.ok (Sample.signature 5 5))),.task p Sample.round,.restart,
    .task p .recover,.task p (.recoverNext .failed)]

theorem nonces_in_sequence_released :
    ∃ w, (agreeingDriver Sample.chains).Reaches World.init w ∧
      w.store.nonceSlots.rows.map (fun x => (x.slot.nonce,x.ownerId)) = [(0,2),(1,3)] ∧
      w.store.nonceHwm Sample.pair = some 1 ∧ InSequence Sample.chains w Sample.pair := by
  have hrun : (agreeingDriver Sample.chains).Runs World.init releasedNonceRun := by
    decide +kernel
  exact ⟨_,hrun.reaches,by decide +kernel,by decide +kernel,
    nonces_in_sequence hrun.reaches Sample.pair⟩

end GumEngine
