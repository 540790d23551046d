import GumEngine.Pipeline.ExactlyOnce
import GumEngine.Pipeline.Fidelity

/-!
# Jobs whose nonce is given back

A job lands only by an attempt that the chain took. So a driver that is told of what it relies on gives
a nonce back only while its job is bound to it, or has failed: it attributes its calls by itself.
-/

namespace GumEngine
open Relational Transition

variable {Sig : Type}

/-- A transaction of the job is on the chain. -/
def JobRow.Landed (j : JobRow) : Prop := j.status.minedAs ≠ none

/-! ## How the rows of jobs change -/

/-- The rows of `jobs` are rewritten in place; a job that did not land does so only if it settles. -/
def Store.RewritesJobs (settles : JobId → Prop) (s s' : Store) : Prop :=
  ∃ F : JobRow → JobRow, (∀ j, (F j).id = j.id) ∧ (∀ j, (F j).Landed → j.Landed ∨ settles j.id) ∧
    s'.jobs.rows = s.jobs.rows.map F

/-- The job of the attempt whose inclusion is written. -/
def Op.Settles (s : Store) : Op → JobId → Prop
  | .settleInclusion a _ _,id => a.owner = .job id ∧ ∃ r ∈ s.txAttempts.rows, r.id = a.id
  | _,_ => False

def Op.isInsert : Op → Bool
  | .insertJob _ _ => true
  | _ => false

section Rewrites

variable {settles : JobId → Prop} {s m s' : Store} {a : Attempt} {j : JobRow}

theorem Store.RewritesJobs.same (h : s'.jobs = s.jobs) : s.RewritesJobs settles s' :=
  ⟨id,fun _ => rfl,fun _ hl => .inl hl,by rw [h,List.map_id]⟩

theorem Store.RewritesJobs.trans (h : s.RewritesJobs settles m) (h' : m.RewritesJobs settles s') :
    s.RewritesJobs settles s' := by
  obtain ⟨F,hF,hFl,hm⟩ := h
  obtain ⟨G,hG,hGl,hs⟩ := h'
  refine ⟨G ∘ F,fun j => (hG (F j)).trans (hF j),fun j hl => ?_,?_⟩
  · rcases hGl (F j) hl with hl | hset
    · exact hFl j hl
    · exact .inr (hF j ▸ hset)
  · rw [hs,hm,List.map_map]

theorem Store.RewritesJobs.back (h : s.RewritesJobs settles s') {j' : JobRow}
    (hj : j' ∈ s'.jobs.rows) :
    ∃ j ∈ s.jobs.rows, j.id = j'.id ∧ (j'.Landed → j.Landed ∨ settles j'.id) := by
  obtain ⟨F,hF,hland,hs⟩ := h
  rw [hs] at hj
  obtain ⟨j,hmem,rfl⟩ := List.mem_map.mp hj
  exact ⟨j,hmem,(hF j).symm,fun hl => (hF j).symm ▸ hland j hl⟩

theorem ownJob_landed {st : List JobStatus} {f : JobRow → JobRow}
    (hf : j.status ∈ st → (f j).Landed → j.Landed) (h : (ownJob a st f j).Landed) : j.Landed := by
  by_cases ho : a.owner = .job j.id ∧ j.status ∈ st
  · rw [ownJob_of ho.1 ho.2] at h
    exact hf ho.2 h
  · rwa [ownJob_of_not ho] at h

theorem bindJob_landed {kind : BindKind} (h : (bindJob a kind j).Landed) : j.Landed := by
  refine ownJob_landed (fun _ hl => ?_) h
  cases kind with
  | first => exact (hl rfl).elim
  | replacement => exact hl
  | cancel => exact (hl rfl).elim

theorem includeJob_landed {inc : Inclusion} (h : (includeJob a inc j).Landed) :
    j.Landed ∨ a.owner = .job j.id := by
  by_cases ho : a.owner = .job j.id
  · exact .inr ho
  · rw [includeJob_other fun hx => ho hx.1] at h
    exact .inl h

theorem landed_of_included (h : j.status ∈ [JobStatus.included]) : j.Landed := by
  rw [JobRow.Landed,List.mem_singleton.mp h]
  exact Option.some_ne_none _

theorem confirmJob_landed (h : (confirmJob a j).Landed) : j.Landed := by
  unfold confirmJob at h
  split at h
  · exact ownJob_landed (fun hs _ => landed_of_included hs) h
  · exact ownJob_landed (fun _ hl => (hl rfl).elim) h

theorem moveJob_landed {number : Nat} {hash : B256} {receipt : Receipt}
    (h : (moveJob a number hash receipt j).Landed) : j.Landed := by
  unfold moveJob at h
  split at h
  · exact ownJob_landed (fun hs _ => landed_of_included hs) h
  · exact h

theorem demoteJob_landed (h : (demoteJob a j).Landed) : j.Landed := by
  unfold demoteJob at h
  split at h
  · exact ownJob_landed (fun hs _ => landed_of_included hs) h
  · exact h

theorem voidJob_landed {disposition : VoidDisposition} {now : Nat}
    (h : (voidJob a disposition now j).Landed) : j.Landed := by
  unfold voidJob at h
  split at h
  · exact ownJob_landed (fun _ hl => (hl rfl).elim) h
  · exact ownJob_landed (fun _ hl => (hl rfl).elim) h

theorem Store.RewritesJobs.rewrite {p : JobRow → Bool} {f : JobRow → JobRow}
    (h : s'.jobs.rows = s.jobs.rows.map (Relational.rewrite p f)) (hf : ∀ j, (f j).id = j.id)
    (hl : ∀ j, (f j).Landed → j.Landed) : s.RewritesJobs settles s' := by
  refine ⟨Relational.rewrite p f,rewrite_same JobRow.id fun j _ => hf j,fun j hland => ?_,h⟩
  unfold Relational.rewrite at hland
  split at hland
  · exact .inl (hl j hland)
  · exact .inl hland

theorem confirmInTx_rewrites (s : Store) (a : Attempt) :
    s.RewritesJobs settles (confirmInTx s a).2 := by
  rcases confirmInTx_spec s a with h | ⟨-,h⟩
  · rw [h]
    exact .same rfl
  · exact ⟨confirmJob a,confirmJob_id a,fun _ hl => .inl (confirmJob_landed hl),h.jobs⟩

theorem demoteInclusion_rewrites (s : Store) (a : Attempt) :
    s.RewritesJobs settles (demoteInclusion s a).2 := by
  rcases demoteInclusion_spec s a with h | ⟨-,h⟩
  · rw [h]
    exact .same rfl
  · exact ⟨demoteJob a,demoteJob_id a,fun _ hl => .inl (demoteJob_landed hl),h.jobs⟩

theorem failJob_rewrites (s : Store) (id : JobId) (allowed : List JobStatus) (failure : JobFailure)
    (message : String) (revertData : Option Bytes)
    (hlive : ∀ x ∈ allowed, x.isTerminal = false) :
    s.RewritesJobs settles (failJob s id allowed failure message revertData).2 :=
  .rewrite (failJob_spec id failure message revertData hlive).2 (fun _ => rfl)
    fun _ hl => (hl rfl).elim

theorem Op.Possible.rewritesJobs {w : World} {op : Op} (h : op.Possible w)
    (hop : op.isInsert = false) :
    w.store.RewritesJobs (op.Settles w.store) (op.apply w.store) := by
  have hself : w.store.RewritesJobs (op.Settles w.store) w.store := .same rfl
  cases op with
  | insertJob id request => cases hop
  | createTopup id chainId treasury signer amount =>
    exact Store.commit_cases (I := fun s' => w.store.RewritesJobs _ s') hself
      fun s' h => .same (createTopup_spec h).2.1
  | bindAttempt epoch a kind => cases h
  | settleInclusion a inc confirmNow =>
    refine Store.commit_map_cases (I := fun s' => w.store.RewritesJobs _ s') hself fun st s' h => ?_
    rcases settleInclusion_spec h with ⟨-,rfl⟩ | ⟨-,m,hm,rfl⟩
    · exact hself
    · obtain ⟨r,hr,hid,-⟩ := hm.found
      have hrewrites : w.store.RewritesJobs (Op.Settles w.store (.settleInclusion a inc confirmNow)) m :=
        ⟨includeJob a inc,includeJob_id a inc,
          fun _ hl => (includeJob_landed hl).imp_right fun ho => ⟨ho,r,hr,hid⟩,hm.jobs⟩
      split
      · exact hrewrites.trans (confirmInTx_rewrites m a)
      · exact hrewrites
  | settleConfirmation a => exact confirmInTx_rewrites w.store a
  | updateInclusionBlock a number hash receipt =>
    exact ⟨_,moveJob_id a number hash receipt,fun _ hl => .inl (moveJob_landed hl),
      (updateInclusionBlock_spec w.store a number hash receipt).jobs⟩
  | demoteInclusion a => exact demoteInclusion_rewrites w.store a
  | voidBinding epoch a mode disposition now => cases h
  | failJob id allowed failure message revertData =>
    exact failJob_rewrites w.store id allowed failure message revertData h.failsLive
  | requeueFront id now =>
    refine Store.commit_map_cases (I := fun s' => w.store.RewritesJobs _ s') hself fun n s' h => ?_
    exact .rewrite (requeueFront_spec h).2.2 (fun _ => rfl) fun _ hl => hl
  | cancelQueued id => exact failJob_rewrites w.store id _ _ _ _ (by decide)
  | acquire => cases h

theorem Turned.rewritesJobs {w : World} {p : PairKey} {t : Activity} {c : Tally}
    (h : Turned w p s t c) : w.store.RewritesJobs (fun _ => False) s := by
  cases h with
  | binds hp hs ht =>
    rcases hs with ⟨rfl,-⟩ | ⟨hb,-⟩
    · exact .same rfl
    · exact ⟨_,bindJob_id _ _,fun _ hl => .inl (bindJob_landed hl),(bindAttempt_spec hb).jobs⟩
  | voids hp hs ht hr =>
    rcases hs with ⟨rfl,-⟩ | ⟨hv,-⟩
    · exact .same rfl
    · exact ⟨_,voidJob_id _ _ _,fun _ hl => .inl (voidJob_landed hl),(voidBinding_spec hv).jobs⟩
  | walks hp hs ht =>
    rcases hs with rfl | ⟨a,rfl⟩
    · exact .same rfl
    · exact demoteInclusion_rewrites w.store a
  | _ => exact .same rfl

end Rewrites

/-- The job that an event settles. -/
def CallEvent.Settles (w : World) : CallEvent → JobId → Prop
  | .op o,id => o.Settles w.store id
  | _,_ => False

def CallEvent.isInsert : CallEvent → Bool
  | .op o => o.isInsert
  | _ => false

/-- What an event of the pipeline leaves of the jobs. -/
theorem step_jobs {alloy : Alloy Sig} (chains : ChainId → ChainKind) {w : World} {e : CallEvent}
    (ht : Traced w) (he : (e.lower alloy w).Possible w) (hi : e.isInsert = false) :
    w.store.KeepsJobs (w.step chains (e.lower alloy w)).store ∧
      w.store.RewritesJobs (e.Settles w) (w.step chains (e.lower alloy w)).store := by
  cases e with
  | op o => exact ⟨Op.Possible.keepsJobs he,Op.Possible.rewritesJobs he hi⟩
  | mine k m => exact ⟨.rfl' w.store,.same rfl⟩
  | restart => exact ⟨.rfl' w.store,.same rfl⟩
  | task p i =>
    have hturned := World.turn_turned chains (i.lower alloy w p) (ht.honest p)
    exact ⟨hturned.keepsJobs,hturned.rewritesJobs⟩

theorem SlotOwner.of_jobId {o : SlotOwner} {id : JobId} (h : o.jobId = some id) : o = .job id := by
  cases o with
  | job i => exact congrArg SlotOwner.job (Option.some.inj h)
  | topup i => cases h

/-! ## Every job that has landed is on the chain -/

/-- A job that landed has an attempt that the chain took. -/
def World.Grounded (w : World) : Prop :=
  ∀ j ∈ w.store.jobs.rows, j.Landed → ∃ a ∈ w.bound, a.owner = .job j.id ∧
    w.mined a.slot = some (.ours a.txHash)

section Grounded

variable {alloy : Alloy Sig} {w : World} {e : CallEvent}

theorem World.Grounded.init : World.init.Grounded := by
  intro j hj
  cases hj

/-- What was committed stays committed, and what was mined stays mined. -/
theorem step_evidence (chains : ChainId → ChainKind) (he : (e.lower alloy w).Possible w)
    {a : Attempt} (ha : a ∈ w.bound) (hm : w.mined a.slot = some (.ours a.txHash)) :
    a ∈ (w.step chains (e.lower alloy w)).bound ∧
      (w.step chains (e.lower alloy w)).mined a.slot = some (.ours a.txHash) := by
  cases e with
  | op o => exact ⟨ha,hm⟩
  | mine k m =>
    refine ⟨ha,?_⟩
    -- a block takes a nonce that is free
    have hfree : w.mined k = none := by
      cases m with
      | ours h => exact he.1
      | foreign => exact he
    have hne : a.slot ≠ k := by
      rintro rfl
      rw [hm] at hfree
      cases hfree
    exact (Function.update_of_ne hne _ _).trans hm
  | restart => exact ⟨ha,hm⟩
  | task p i =>
    have hairs := w.turn_airs (p := p) chains (i.lower alloy w p)
    exact ⟨hairs.bound ha,(congrFun hairs.mined a.slot).trans hm⟩

theorem World.Grounded.step {chains : ChainId → ChainKind} (h : w.Grounded) (hat : Attributed w)
    (ht : Traced w) (he : (e.lower alloy w).Possible w) : (w.step chains (e.lower alloy w)).Grounded := by
  have hkept : ∀ id, (∃ a ∈ w.bound, a.owner = .job id ∧ w.mined a.slot = some (.ours a.txHash)) →
      ∃ a ∈ (w.step chains (e.lower alloy w)).bound, a.owner = .job id ∧
        (w.step chains (e.lower alloy w)).mined a.slot = some (.ours a.txHash) := by
    rintro id ⟨a,ha,ho,hm⟩
    obtain ⟨ha',hm'⟩ := step_evidence chains he ha hm
    exact ⟨a,ha',ho,hm'⟩
  intro j' hj' hland
  cases hi : e.isInsert with
  | true =>
    cases e with
    | op o =>
      cases o with
      | insertJob id request =>
        refine Store.commit_cases (I := fun s' => j' ∈ s'.jobs.rows → _)
          (fun hj => hkept _ (h j' hj hland)) (fun s' hs hj => ?_) hj'
        obtain ⟨-,-,hrows,-⟩ := insertJob_spec hs
        rcases List.mem_append.mp (hrows ▸ hj) with hj | hj
        · exact hkept _ (h j' hj hland)
        · rw [List.mem_singleton.mp hj] at hland
          exact (hland rfl).elim
      | _ => cases hi
    | _ => cases hi
  | false =>
    obtain ⟨j,hj,hid,hback⟩ := (step_jobs chains ht he hi).2.back hj'
    rcases hback hland with hl | hset
    · exact hkept _ (hid ▸ h j hj hl)
    · -- the inclusion of one of its attempts is written
      cases e with
      | op o =>
        cases o with
        | settleInclusion a inc confirmNow =>
          obtain ⟨ho,r,hr,hrid⟩ := hset
          obtain ⟨b,hb,hcol⟩ := hat.rooted.columns r.columns (List.mem_map_of_mem hr)
          have hof := he.1 r hr hrid
          have hslot : b.slot = a.slot := (congrArg AttemptRow.slot hcol).symm.trans hof.slot
          have hhash : b.txHash = a.txHash := (congrArg AttemptRow.txHash hcol).symm.trans hof.txHash
          have hjob : b.owner.jobId = some j'.id := by
            have hrow : r.jobId = b.owner.jobId := congrArg AttemptRow.jobId hcol
            rw [← hrow,hof.jobId,ho]
            rfl
          -- the attempt that was committed under the settled id has the slot and hash of `a`
          exact hkept _ ⟨b,hb,SlotOwner.of_jobId hjob,by rw [hslot,hhash]; exact he.2⟩
        | _ => cases hset
      | _ => cases hset

end Grounded

/-! ## Giving a nonce back -/

theorem Sound.not_dropped {w : World} (h : Sound w) {r : AttemptRow}
    (hr : r ∈ w.store.txAttempts.rows) (hm : w.Mines r) : r.status ≠ .dropped :=
  fun hd => h.chain.harmless (h.chain.dropped r hr hd) hm

/-- Nothing at a nonce that was never accepted is on the chain, so its job has not landed; and an
attempt of the job is not dropped, so the job is not queued. -/
theorem Sound.fresh_job {w : World} (h : Sound w) (ht : Traced w) (hg : w.Grounded) {p : PairKey}
    {f : InFlight} (hf : f ∈ (w.tasks p).inFlight) (hfresh : f.neverAccepted = true)
    (hair : (w.tasks p).onAir = none) {j : JobRow} (hj : j ∈ w.store.jobs.rows)
    (ho : f.owner = .job j.id) : j.status ∈ [JobStatus.sent,.cancelling,.failed] := by
  obtain ⟨a,ha,hao⟩ := (h.tasks.held p f hf).owner
  obtain ⟨r,hr,hid,hslot,-,hjob⟩ := (ht.held p f hf a ha).row ht
  have halive : r.status ≠ .dropped := (h.tasks.held p f hf).alive a ha r hr hid
  have hown : r.jobId = some j.id := by
    rw [hjob,hao,ho]
    rfl
  -- every attempt of a queued job is dropped
  have hqueued : j.status ≠ .queued := fun hq => halive (h.jobs.queued j hj hq r hr hown)
  have hland : ¬ j.Landed := by
    intro hl
    obtain ⟨b,hb,hbo,hm⟩ := hg j hj hl
    obtain ⟨x,hx,-,hof⟩ := ht.stored b hb
    have hmines : w.Mines x := by
      rw [World.Mines,hof.slot,hof.txHash]
      exact hm
    have hxown : x.jobId = some j.id := by
      rw [hof.jobId,hbo]
      rfl
    -- of a job's attempts only those at one nonce are not dropped
    have hsame : x.slot = p.slot f.nonce :=
      (h.jobs.home x hx r hr (h.not_dropped hx hmines) halive j.id hxown hown).trans hslot
    have hharm := h.tasks.fresh p f hf hfresh x hx hsame (by rw [hair]; exact fun hn => by cases hn)
    exact h.chain.harmless hharm hmines
  cases hst : j.status with
  | queued => exact absurd hst hqueued
  | included => exact absurd (by rw [JobRow.Landed,hst]; exact Option.some_ne_none _) hland
  | confirmed => exact absurd (by rw [JobRow.Landed,hst]; exact Option.some_ne_none _) hland
  | sent => exact List.mem_cons_self
  | cancelling => exact List.mem_cons_of_mem _ List.mem_cons_self
  | failed => exact List.mem_cons_of_mem _ (List.mem_cons_of_mem _ List.mem_cons_self)

/-- So the driver, told of what it relies on, keeps its own part of attribution. -/
theorem Sound.releases {w : World} (h : Sound w) (ht : Traced w) (hg : w.Grounded) (e : Event) :
    e.Releases w := by
  cases e with
  | task p i =>
    cases i with
    | void call now =>
      simp only [Event.Releases]
      split
      · next f disposition hp =>
        intro _ j hj ho
        have hfresh : f.neverAccepted = true := by
          have hon := ht.honest p
          rw [hp] at hon
          exact hon
        exact h.fresh_job ht hg (by rw [hp]; rfl) hfresh (by rw [hp]; rfl) hj ho
      · trivial
    | _ => trivial
  | _ => trivial

/-! ## The engine that signs -/

/-- The engine that signs, told of what it relies on. -/
def toldCaller (alloy : Alloy Sig) (chains : ChainId → ChainKind) : Machine World CallEvent :=
  (caller alloy chains).restrict fun w e => (e.lower alloy w).Told w

section Told

variable {alloy : Alloy Sig} {chains : ChainId → ChainKind} {w w' : World}

theorem toldDriver_of_caller (h : (toldCaller alloy chains).Reaches w w') :
    (toldDriver chains).Reaches w w' :=
  Relation.ReflTransGen.mono (fun w _ ⟨e,he,ht⟩ => ⟨e.lower alloy w,⟨he.1.1,he.2⟩,ht⟩) _ _ h

/-- What the driver is told is enough for it to keep its calls apart. -/
theorem orderlyCaller_of_told (hinv : alloy.Inverts)
    (h : (toldCaller alloy chains).Reaches World.init w) :
    (orderlyCaller alloy chains).Reaches World.init w := by
  have hall : (orderlyCaller alloy chains).Reaches World.init w ∧ Aired w ∧ Sound w ∧ w.Grounded := by
    refine h.invariant (I := fun w => (orderlyCaller alloy chains).Reaches World.init w ∧ Aired w ∧
      Sound w ∧ w.Grounded) ⟨.refl _,.init,.init,.init⟩ ?_
    rintro w e ⟨hreach,ha,hs,hg⟩ ⟨⟨hposs,hissued⟩,htold⟩
    have hacc := Accounted.reaches hinv hreach
    have ht' : Traced (w.step chains (e.lower alloy w)) := hacc.traced.step hposs htold.asksOwn
    exact ⟨hreach.tail ⟨⟨hposs,hissued⟩,htold.asksOwn,hs.releases hacc.traced hg _⟩,ha.step ht',
      hs.step hacc.traced ha hposs htold,hg.step hacc.attributed hacc.traced hposs⟩
  exact hall.1

end Told

end GumEngine
